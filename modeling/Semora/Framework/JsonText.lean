import Semora.Framework.Json

/-! # JSON Text

    `json.dumps` with sorted keys and no blanks: values become text, and
    different values become different texts.

    * `escape`: a character within quotes; `unescape` reads it back.
    * `write`: the text of a value. What a text begins with tells which value
      it is of and where it ends, so texts can be told apart even when more
      follows (`write_inj`).
    * `dumps`: the text with every object's keys in order. -/

namespace JsonTree

/-! ## Section 1: Characters -/

/-- A hexadecimal digit. -/
def hexDigit (d : Nat) : Char := if d < 10 then Char.ofNat (48 + d) else Char.ofNat (87 + d)

/-- What a hexadecimal digit stands for. -/
def hexVal (c : Char) : Nat := if c.toNat < 58 then c.toNat - 48 else c.toNat - 87

/-- `f"\\u{n:04x}"`. -/
def unicode (n : Nat) : List Char :=
  ['\\', 'u', hexDigit (n / 4096 % 16), hexDigit (n / 256 % 16), hexDigit (n / 16 % 16),
    hexDigit (n % 16)]

/-- A character as it stands between quotes; `ascii` is `ensure_ascii`. -/
def escape (ascii : Bool) (c : Char) : List Char :=
  if c = '"' then ['\\', '"']
  else if c = '\\' then ['\\', '\\']
  else if c = '\n' then ['\\', 'n']
  else if c = '\r' then ['\\', 'r']
  else if c = '\t' then ['\\', 't']
  else if c = '\x0c' then ['\\', 'f']
  else if c = '\x08' then ['\\', 'b']
  else if c.toNat < 0x20 ∨ (ascii = true ∧ 0x7e < c.toNat) then
    if c.toNat < 0x10000 then unicode c.toNat
    else
      -- a surrogate pair
      unicode (0xd800 + (c.toNat - 0x10000) / 0x400)
        ++ unicode (0xdc00 + (c.toNat - 0x10000) % 0x400)
  else [c]

/-- The number four hexadecimal digits stand for, and what follows them. -/
def readHex : List Char → Option (Nat × List Char)
  | a :: b :: c :: d :: rest =>
    some (4096 * hexVal a + 256 * hexVal b + 16 * hexVal c + hexVal d, rest)
  | _ => none

/-- The character of an escape with `u`, and what follows it. -/
def readUnicode (text : List Char) : Option (Char × List Char) :=
  match readHex text with
  | none => none
  | some (n, rest) =>
    if 0xd800 ≤ n ∧ n < 0xdc00 then
      match readHex (rest.drop 2) with
      | none => none
      | some (m, rest) => some (Char.ofNat (0x10000 + (n - 0xd800) * 0x400 + (m - 0xdc00)), rest)
    else some (Char.ofNat n, rest)

/-- The first character between quotes, and what follows it. -/
def unescape : List Char → Option (Char × List Char)
  | [] => none
  | c :: rest =>
    if c ≠ '\\' then some (c, rest)
    else
      match rest with
      | [] => none
      | mark :: rest =>
        if mark = 'u' then readUnicode rest
        else if mark = 'n' then some ('\n', rest)
        else if mark = 'r' then some ('\r', rest)
        else if mark = 't' then some ('\t', rest)
        else if mark = 'f' then some ('\x0c', rest)
        else if mark = 'b' then some ('\x08', rest)
        else some (mark, rest)

theorem hexVal_hexDigit {d : Nat} (h : d < 16) : hexVal (hexDigit d) = d := by
  have hall : ∀ d : Fin 16, hexVal (hexDigit d) = d := by decide
  exact hall ⟨d, h⟩

theorem readHex_unicode {n : Nat} (h : n < 65536) (rest : List Char) :
    readHex ((unicode n).drop 2 ++ rest) = some (n, rest) := by
  have hdigits : 4096 * (n / 4096 % 16) + 256 * (n / 256 % 16) + 16 * (n / 16 % 16) + n % 16
      = n := by omega
  show some (4096 * hexVal (hexDigit (n / 4096 % 16)) + 256 * hexVal (hexDigit (n / 256 % 16))
    + 16 * hexVal (hexDigit (n / 16 % 16)) + hexVal (hexDigit (n % 16)), rest) = _
  rw [hexVal_hexDigit (Nat.mod_lt _ (by decide)), hexVal_hexDigit (Nat.mod_lt _ (by decide)),
    hexVal_hexDigit (Nat.mod_lt _ (by decide)), hexVal_hexDigit (Nat.mod_lt _ (by decide)),
    hdigits]

theorem unescape_unicode (n : Nat) (rest : List Char) :
    unescape (unicode n ++ rest) = readUnicode ((unicode n).drop 2 ++ rest) := rfl

theorem drop_unicode (n : Nat) (rest : List Char) :
    (unicode n ++ rest).drop 2 = (unicode n).drop 2 ++ rest := rfl

/-- One escape is read back. -/
theorem unescape_short {n : Nat} (h : n < 65536) (hplain : ¬ (0xd800 ≤ n ∧ n < 0xdc00))
    (rest : List Char) : unescape (unicode n ++ rest) = some (Char.ofNat n, rest) := by
  rw [unescape_unicode]
  unfold readUnicode
  rw [readHex_unicode h]
  exact if_neg hplain

/-- A surrogate pair is read back. -/
theorem unescape_pair {high low : Nat} (hhigh : 0xd800 ≤ high ∧ high < 0xdc00)
    (hlow : low < 65536) (rest : List Char) :
    unescape (unicode high ++ (unicode low ++ rest))
      = some (Char.ofNat (0x10000 + (high - 0xd800) * 0x400 + (low - 0xdc00)), rest) := by
  rw [unescape_unicode]
  unfold readUnicode
  rw [readHex_unicode (by omega)]
  dsimp only
  rw [if_pos hhigh, drop_unicode, readHex_unicode hlow]

/-- What is escaped is read back. -/
theorem unescape_escape (ascii : Bool) (c : Char) (rest : List Char) :
    unescape (escape ascii c ++ rest) = some (c, rest) := by
  have hvalid : c.toNat < 0xd800 ∨ 0xdfff < c.toNat ∧ c.toNat < 0x110000 := c.valid
  unfold escape
  split_ifs with hquote hslash hn hr ht hf hb hcontrol hshort
  · rw [hquote]
    rfl
  · rw [hslash]
    rfl
  · rw [hn]
    rfl
  · rw [hr]
    rfl
  · rw [ht]
    rfl
  · rw [hf]
    rfl
  · rw [hb]
    rfl
  · rw [unescape_short hshort (by omega), Char.ofNat_toNat]
  · have hvalue : 0x10000 + (0xd800 + (c.toNat - 0x10000) / 0x400 - 0xd800) * 0x400
        + (0xdc00 + (c.toNat - 0x10000) % 0x400 - 0xdc00) = c.toNat := by omega
    rw [List.append_assoc, unescape_pair (by omega) (by omega), hvalue, Char.ofNat_toNat]
  · exact if_pos hslash

/-- What is escaped does not end the quotes. -/
theorem escape_start (ascii : Bool) (c : Char) :
    ∃ first rest, escape ascii c = first :: rest ∧ first ≠ '"' := by
  unfold escape
  split_ifs with hquote
  all_goals first
    | exact ⟨_, _, rfl, by decide⟩
    | exact ⟨_, _, rfl, hquote⟩

/-- No control character is left. -/
theorem control_not_mem_escape (ascii : Bool) (c : Char) : '\x1f' ∉ escape ascii c := by
  have hdigit : ∀ n, '\x1f' ∉ unicode n := by
    intro n hmem
    have hall : ∀ d : Fin 16, hexDigit d ≠ '\x1f' := by decide
    have hdigits : ∀ d, hexDigit (d % 16) ≠ '\x1f' :=
      fun d => hall ⟨d % 16, Nat.mod_lt d (by decide)⟩
    simp only [unicode, List.mem_cons, List.not_mem_nil, or_false] at hmem
    rcases hmem with h | h | h | h | h | h
    · cases h
    · cases h
    · exact hdigits _ h.symm
    · exact hdigits _ h.symm
    · exact hdigits _ h.symm
    · exact hdigits _ h.symm
  unfold escape
  -- The escapes in order: seven of two characters, then `\u` sequences, and last the character
  -- itself, which is not a control.
  split_ifs with _ _ _ _ _ _ _ hcontrol
  · decide
  · decide
  · decide
  · decide
  · decide
  · decide
  · decide
  · exact hdigit _
  · rw [List.mem_append]
    exact fun hmem => hmem.elim (hdigit _) (hdigit _)
  · rw [List.mem_singleton]
    rintro rfl
    exact hcontrol (Or.inl (by decide))

/-! ## Section 2: Text -/

/-- What the words of scalars are made of. -/
def isWord (c : Char) : Bool := c.isAlphanum || c = '.' || c = '-' || c = '+'

/-- How scalars are written. -/
class Words (S : Type) where
  word : S → List Char
  injective : Function.Injective word
  nonempty : ∀ s, word s ≠ []
  plain : ∀ s, ∀ c ∈ word s, isWord c = true

/-- `json.dumps` of a string. -/
def quote (ascii : Bool) (text : String) : List Char :=
  '"' :: (text.toList.flatMap (escape ascii) ++ ['"'])

/-- `",".join(texts)` and the closing bracket. -/
def joined (close : Char) : List (List Char) → List Char
  | [] => [close]
  | text :: texts => text ++ match texts with
    | [] => [close]
    | more :: texts => ',' :: joined close (more :: texts)

variable {S : Type} [Words S] (ascii : Bool)

mutual

/-- The text of a value. -/
def write : JsonTree S → List Char
  | .scalar value => Words.word value
  | .str text => quote ascii text
  | .arr items => '[' :: joined ']' (writeItems items)
  | .obj fields => '{' :: joined '}' (writeFields fields)

def writeItems : List (JsonTree S) → List (List Char)
  | [] => []
  | item :: items => write item :: writeItems items

def writeFields : List (String × JsonTree S) → List (List Char)
  | [] => []
  | (k, v) :: fields => (quote ascii k ++ ':' :: write v) :: writeFields fields

end

/-- The text of a member. -/
def writeField (field : String × JsonTree S) : List Char :=
  quote ascii field.1 ++ ':' :: write ascii field.2

theorem writeItems_eq_map (items : List (JsonTree S)) :
    writeItems ascii items = items.map (write ascii) := by
  induction items with
  | nil => rfl
  | cons item items ih =>
    rw [writeItems, ih]
    rfl

theorem writeFields_eq_map (fields : List (String × JsonTree S)) :
    writeFields ascii fields = fields.map (writeField ascii) := by
  induction fields with
  | nil => rfl
  | cons field fields ih =>
    rw [writeFields, ih]
    rfl

/-- `json.dumps(j, sort_keys=True, separators=(",", ":"))`. -/
def dumps (j : JsonTree S) : String := String.ofList (write ascii (sortKeys j))

/-! ## Section 3: Texts are told apart -/

/-- What follows a value, if anything does. -/
def Ends (rest : List Char) : Prop := ∀ c ∈ rest.head?, isWord c = false

variable {ascii}

theorem quote_inj {text text' : String} {r r' : List Char}
    (h : quote ascii text ++ r = quote ascii text' ++ r') : text = text' ∧ r = r' := by
  have hchars : ∀ cs cs' : List Char,
      cs.flatMap (escape ascii) ++ '"' :: r = cs'.flatMap (escape ascii) ++ '"' :: r' →
        cs = cs' ∧ r = r' := by
    intro cs
    -- Induction on the first text: an escape never begins with a quote, and `unescape` reads back
    -- the character that it stands for.
    induction cs with
    | nil =>
      intro cs' heq
      cases cs' with
      | nil => exact ⟨rfl, (List.cons.inj heq).2⟩
      | cons c' cs' =>
        obtain ⟨first, rest, hfirst, hne⟩ := escape_start ascii c'
        rw [List.flatMap_cons, hfirst] at heq
        exact absurd (List.cons.inj heq).1.symm hne
    | cons c cs ih =>
      intro cs' heq
      rw [List.flatMap_cons, List.append_assoc] at heq
      cases cs' with
      | nil =>
        obtain ⟨first, rest, hfirst, hne⟩ := escape_start ascii c
        rw [hfirst] at heq
        exact absurd (List.cons.inj heq).1 hne
      | cons c' cs' =>
        rw [List.flatMap_cons, List.append_assoc] at heq
        have hread := congrArg unescape heq
        rw [unescape_escape, unescape_escape] at hread
        obtain ⟨hc, hrest⟩ := Prod.mk.inj (Option.some.inj hread)
        obtain ⟨hcs, hr⟩ := ih cs' hrest
        exact ⟨by rw [hc, hcs], hr⟩
  have heq : (text.toList.flatMap (escape ascii) ++ ['"']) ++ r
      = (text'.toList.flatMap (escape ascii) ++ ['"']) ++ r' := (List.cons.inj h).2
  rw [List.append_assoc, List.append_assoc] at heq
  obtain ⟨hcs, hr⟩ := hchars _ _ heq
  exact ⟨String.toList_injective hcs, hr⟩

theorem word_inj {v v' : S} {r r' : List Char} (hr : Ends r) (hr' : Ends r')
    (h : Words.word v ++ r = Words.word v' ++ r') : v = v' ∧ r = r' := by
  have htake : ∀ (v : S) (r : List Char), Ends r →
      (Words.word v ++ r).takeWhile isWord = Words.word v := by
    intro v r hr
    rw [List.takeWhile_append_of_pos (Words.plain v)]
    cases r with
    | nil => simp
    | cons c rest => simp [hr c rfl]
  have hword := congrArg (List.takeWhile isWord) h
  rw [htake v r hr, htake v' r' hr'] at hword
  rw [hword] at h
  exact ⟨Words.injective hword, List.append_cancel_left h⟩

/-- Joined texts are told apart if each text is. -/
theorem joined_inj {α : Type} {close : Char} (hclose : isWord close = false) (hcomma : close ≠ ',')
    {text : α → List Char} (hstart : ∀ x, ∃ c rest, text x = c :: rest ∧ c ≠ close)
    {xs : List α} (hitem : ∀ x ∈ xs, ∀ y r r', Ends r → Ends r' → text x ++ r = text y ++ r' →
      x = y ∧ r = r') {ys : List α} {r r' : List Char}
    (h : joined close (xs.map text) ++ r = joined close (ys.map text) ++ r') :
    xs = ys ∧ r = r' := by
  have hends : ∀ (rest : List Char), Ends (close :: rest) ∧ Ends (',' :: rest) := by
    intro rest
    refine ⟨fun c hc => ?_, fun c hc => ?_⟩
    · obtain rfl := Option.some.inj hc
      exact hclose
    · obtain rfl := Option.some.inj hc
      decide
  -- what follows the first text
  let tail (more : List α) (r : List Char) : List Char := match more with
    | [] => close :: r
    | y :: more => ',' :: (joined close (text y :: more.map text) ++ r)
  have hjoined : ∀ (x : α) (more : List α) (r : List Char),
      joined close ((x :: more).map text) ++ r = text x ++ tail more r := by
    intro x more r
    cases more with
    | nil => simp [joined, tail]
    | cons y more => simp [joined, tail]
  -- Whatever follows a text ends it.
  have htail : ∀ more r, Ends (tail more r) := by
    intro more r
    cases more with
    | nil => exact (hends _).1
    | cons y more => exact (hends _).2
  -- Induction on the first list: texts are read off one by one, and the commas count them.
  induction xs generalizing ys with
  | nil =>
    cases ys with
    | nil => exact ⟨rfl, (List.cons.inj h).2⟩
    | cons y ys =>
      obtain ⟨c, rest, htext, hne⟩ := hstart y
      rw [hjoined, htext] at h
      exact absurd (List.cons.inj h).1.symm hne
  | cons x xs ih =>
    rw [hjoined] at h
    cases ys with
    | nil =>
      obtain ⟨c, rest, htext, hne⟩ := hstart x
      rw [htext] at h
      exact absurd (List.cons.inj h).1 hne
    | cons y ys =>
      rw [hjoined] at h
      obtain ⟨hxy, hrest⟩ := hitem x List.mem_cons_self y _ _ (htail _ _) (htail _ _) h
      cases xs with
      | nil =>
        cases ys with
        | nil => exact ⟨by rw [hxy], (List.cons.inj hrest).2⟩
        | cons z ys => exact absurd (List.cons.inj hrest).1 hcomma
      | cons z xs =>
        cases ys with
        | nil => exact absurd (List.cons.inj hrest).1.symm hcomma
        | cons w ys =>
          have hlater : joined close ((z :: xs).map text) ++ r
              = joined close ((w :: ys).map text) ++ r' := (List.cons.inj hrest).2
          obtain ⟨hmore, hr⟩ := ih (fun x hx => hitem x (List.mem_cons_of_mem _ hx)) hlater
          exact ⟨by rw [hxy, hmore], hr⟩

/-- A text begins with a word character, a quote or an opening bracket. -/
theorem write_start (j : JsonTree S) : ∃ c rest, write ascii j = c :: rest ∧ c ≠ ']' ∧ c ≠ '}' := by
  cases j with
  | scalar v =>
    cases hword : Words.word v with
    | nil => exact absurd hword (Words.nonempty v)
    | cons c rest =>
      have hplain : isWord c = true := Words.plain v c (by rw [hword]; exact List.mem_cons_self)
      refine ⟨c, rest, hword, ?_, ?_⟩
      · rintro rfl
        exact absurd hplain (by decide)
      · rintro rfl
        exact absurd hplain (by decide)
  | str text => exact ⟨_, _, rfl, by decide, by decide⟩
  | arr items => exact ⟨_, _, rfl, by decide, by decide⟩
  | obj fields => exact ⟨_, _, rfl, by decide, by decide⟩

theorem word_ne {v : S} {c : Char} {r rest : List Char} (hc : isWord c = false) :
    Words.word v ++ r ≠ c :: rest := by
  intro heq
  cases hword : Words.word v with
  | nil => exact Words.nonempty v hword
  | cons first more =>
    rw [hword] at heq
    have hplain : isWord first = true :=
      Words.plain v first (by rw [hword]; exact List.mem_cons_self)
    rw [(List.cons.inj heq).1, hc] at hplain
    cases hplain

/-- **Texts are told apart**: a text, with what follows it, determines its value. -/
theorem write_inj {j j' : JsonTree S} {r r' : List Char} (hr : Ends r) (hr' : Ends r')
    (h : write ascii j ++ r = write ascii j' ++ r') : j = j' ∧ r = r' := by
  -- Induction on the first tree: the first character tells the kind, and the inner texts are read
  -- off by the rules for quotes and for joined items.
  induction j using induct generalizing j' r r' with
  | scalar v =>
    cases j' with
    | scalar v' =>
      obtain ⟨hv, hrest⟩ := word_inj hr hr' h
      exact ⟨by rw [hv], hrest⟩
    | str text => exact absurd h (word_ne (by decide))
    | arr items => exact absurd h (word_ne (by decide))
    | obj fields => exact absurd h (word_ne (by decide))
  | str text =>
    cases j' with
    | scalar v' => exact absurd h.symm (word_ne (by decide))
    | str text' =>
      obtain ⟨htext, hrest⟩ := quote_inj h
      exact ⟨by rw [htext], hrest⟩
    | arr items => exact absurd (List.cons.inj h).1 (by decide)
    | obj fields => exact absurd (List.cons.inj h).1 (by decide)
  | arr items ih =>
    cases j' with
    | scalar v' => exact absurd h.symm (word_ne (by decide))
    | str text => exact absurd (List.cons.inj h).1 (by decide)
    | arr items' =>
      have hjoined := (List.cons.inj h).2
      rw [writeItems_eq_map, writeItems_eq_map] at hjoined
      obtain ⟨hitems, hrest⟩ := joined_inj (by decide) (by decide)
        (fun x => (write_start x).imp fun c hc => hc.imp fun rest hrest =>
          ⟨hrest.1, hrest.2.1⟩)
        (fun x hx y r r' hr hr' heq => ih x hx hr hr' heq) hjoined
      exact ⟨by rw [hitems], hrest⟩
    | obj fields => exact absurd (List.cons.inj h).1 (by decide)
  | obj fields ih =>
    cases j' with
    | scalar v' => exact absurd h.symm (word_ne (by decide))
    | str text => exact absurd (List.cons.inj h).1 (by decide)
    | arr items => exact absurd (List.cons.inj h).1 (by decide)
    | obj fields' =>
      -- A field is a quoted key, a colon and a value.
      have hfield : ∀ field ∈ fields, ∀ field' r r', Ends r → Ends r' →
          writeField ascii field ++ r = writeField ascii field' ++ r' →
            field = field' ∧ r = r' := by
        intro field hmem field' r r' hr hr' heq
        unfold writeField at heq
        rw [List.append_assoc, List.append_assoc] at heq
        obtain ⟨hk, hrest⟩ := quote_inj heq
        obtain ⟨hv, hr⟩ := ih field hmem hr hr' (List.cons.inj hrest).2
        exact ⟨Prod.ext hk hv, hr⟩
      have hjoined := (List.cons.inj h).2
      rw [writeFields_eq_map, writeFields_eq_map] at hjoined
      obtain ⟨hfields, hrest⟩ := joined_inj (by decide) (by decide)
        (fun x => ⟨'"', _, rfl, by decide⟩) hfield hjoined
      exact ⟨by rw [hfields], hrest⟩

/-- Values are told apart by their text with sorted keys, up to the order of the members. -/
theorem dumps_eq_iff {a b : JsonTree S} (ha : Wf a) (hb : Wf b) :
    dumps ascii a = dumps ascii b ↔ Same id a b := by
  rw [← sortKeys_eq_iff ha hb]
  refine ⟨fun heq => ?_, fun heq => by rw [dumps, heq, dumps]⟩
  have hwrite : write ascii (sortKeys a) = write ascii (sortKeys b) := String.ofList_injective heq
  have hnil : Ends [] := fun _ hc => by cases hc
  exact (write_inj hnil hnil (by rw [hwrite])).1

/-- No control character is in a text. -/
theorem control_not_mem_write (j : JsonTree S) : '\x1f' ∉ write ascii j := by
  have hquote : ∀ text, '\x1f' ∉ quote ascii text := by
    intro text hmem
    unfold quote at hmem
    simp only [List.mem_cons, List.mem_append, List.mem_flatMap, List.not_mem_nil, or_false]
      at hmem
    rcases hmem with h | ⟨c, _, hc⟩ | h
    · exact absurd h (by decide)
    · exact control_not_mem_escape ascii c hc
    · exact absurd h (by decide)
  -- Joining adds commas and brackets only.
  have hjoin : ∀ (close : Char) (texts : List (List Char)), close ≠ '\x1f' →
      (∀ text ∈ texts, '\x1f' ∉ text) → '\x1f' ∉ joined close texts := by
    intro close texts hclose htexts
    induction texts with
    | nil => simpa [joined] using hclose.symm
    | cons text texts ih =>
      have hrest := ih fun other hmem => htexts other (List.mem_cons_of_mem _ hmem)
      have htext := htexts text List.mem_cons_self
      cases texts with
      | nil => simpa [joined] using ⟨htext, hclose.symm⟩
      | cons more texts => simpa [joined] using ⟨htext, hrest⟩
  induction j using induct with
  | scalar v =>
    intro hmem
    exact absurd (Words.plain v _ hmem) (by decide)
  | str text => exact hquote text
  | arr items ih =>
    rw [write, writeItems_eq_map, List.mem_cons, not_or]
    refine ⟨by decide, hjoin _ _ (by decide) fun text hmem => ?_⟩
    obtain ⟨item, hitem, rfl⟩ := List.mem_map.mp hmem
    exact ih item hitem
  | obj fields ih =>
    rw [write, writeFields_eq_map, List.mem_cons, not_or]
    refine ⟨by decide, hjoin _ _ (by decide) fun text hmem => ?_⟩
    obtain ⟨field, hfield, rfl⟩ := List.mem_map.mp hmem
    unfold writeField
    rw [List.mem_append, List.mem_cons, not_or, not_or]
    exact ⟨hquote _, by decide, ih field hfield⟩

end JsonTree
