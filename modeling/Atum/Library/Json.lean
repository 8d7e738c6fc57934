import Atum.Library.Utf8

/-!
# Reading JSON documents

A reader of JSON as RFC 8259 gives it, over the characters of a document.  Every
production is one function that returns what it has read and the rest of the text.
A document is read if its bytes are UTF-8 and its text follows the grammar.  Two
things that the grammar lets pass have no agreed meaning, and a document with one of
them is not read: half of a surrogate pair in a string, and a name that an object has
twice.

`Reads` says what a production makes of a text whatever follows it.  The lemmas about
strings and objects put such statements together, so that a writer of documents is
verified by following what it writes.
-/

namespace Json

open List Option

/-- A JSON value.  Numbers stay as they are written, and objects keep the order of
their members. -/
inductive Value where
  | null
  | bool (value : Bool)
  | number (text : List Char)
  | string (text : List Char)
  | array (items : List Value)
  | object (members : List (List Char × Value))

/-- A production: what is read, and the rest. -/
abbrev Production (α : Type) := List Char → Option (α × List Char)

/-! ## The grammar -/

/-- `ws` -/
def isSpace (c : Char) : Bool := c = ' ' || c = '\t' || c = '\n' || c = '\r'

def skip (text : List Char) : List Char := text.dropWhile isSpace

/-- A hexadecimal digit. -/
def hexDigit (c : Char) : Option Nat :=
  if '0' ≤ c ∧ c ≤ '9' then some (c.toNat - '0'.toNat)
  else if 'a' ≤ c ∧ c ≤ 'f' then some (c.toNat - 'a'.toNat + 10)
  else if 'A' ≤ c ∧ c ≤ 'F' then some (c.toNat - 'A'.toNat + 10)
  else none

/-- `4HEXDIG` -/
def codeUnit : Production Nat
  | a :: b :: c :: d :: rest => do
      let a ← hexDigit a
      let b ← hexDigit b
      let c ← hexDigit c
      let d ← hexDigit d
      some (((a * 16 + b) * 16 + c) * 16 + d, rest)
  | _ => none

/-- What follows `\u`: a character, or the first half of a surrogate pair and then
its second half. -/
def unicodeEscape (text : List Char) : Option (Char × List Char) := do
  let (first, rest) ← codeUnit text
  if 0xd800 ≤ first ∧ first < 0xdc00 then
    match rest with
    | '\\' :: 'u' :: rest => do
        let (second, rest) ← codeUnit rest
        if 0xdc00 ≤ second ∧ second < 0xe000 then
          some (Char.ofNat (0x10000 + (first - 0xd800) * 0x400 + (second - 0xdc00)), rest)
        else none
    | _ => none
  else if 0xdc00 ≤ first ∧ first < 0xe000 then none
  else some (Char.ofNat first, rest)

/-- What follows `\`. -/
def escape : Production Char
  | '"' :: rest => some ('"', rest)
  | '\\' :: rest => some ('\\', rest)
  | '/' :: rest => some ('/', rest)
  | 'b' :: rest => some ('\x08', rest)
  | 'f' :: rest => some ('\x0c', rest)
  | 'n' :: rest => some ('\n', rest)
  | 'r' :: rest => some ('\r', rest)
  | 't' :: rest => some ('\t', rest)
  | 'u' :: rest => unicodeEscape rest
  | _ => none

/-- `*char quotation-mark`, with at most `count` characters. -/
def chars : Nat → Production (List Char)
  | 0, _ => none
  | _ + 1, [] => none
  | count + 1, c :: rest =>
    if c = '"' then some ([], rest)
    else if c = '\\' then do
      let (c, rest) ← escape rest
      let (others, rest) ← chars count rest
      some (c :: others, rest)
    else if c.toNat < 0x20 then none
    else do
      let (others, rest) ← chars count rest
      some (c :: others, rest)

/-- `string` -/
def string : Production (List Char)
  | '"' :: rest => chars rest.length rest
  | _ => none

/-- `1*DIGIT` -/
def digits (text : List Char) : Option (List Char × List Char) :=
  match text.takeWhile Char.isDigit with
  | [] => none
  | read => some (read, text.dropWhile Char.isDigit)

/-- `int` -/
def int : Production (List Char)
  | '0' :: rest => some (['0'], rest)
  | text => digits text

/-- `[ frac ]` -/
def fraction : Production (List Char)
  | '.' :: rest => do
      let (read, rest) ← digits rest
      some ('.' :: read, rest)
  | text => some ([], text)

/-- The sign of an exponent. -/
def sign : List Char → List Char × List Char
  | '+' :: rest => (['+'], rest)
  | '-' :: rest => (['-'], rest)
  | text => ([], text)

/-- `[ exp ]` -/
def exponent : Production (List Char)
  | c :: rest =>
    if c = 'e' ∨ c = 'E' then do
      let (signs, rest) := sign rest
      let (read, rest) ← digits rest
      some (c :: signs ++ read, rest)
    else some ([], c :: rest)
  | [] => some ([], [])

/-- `number` -/
def number (text : List Char) : Option (List Char × List Char) := do
  let (minus, rest) := match text with
    | '-' :: rest => (['-'], rest)
    | text => ([], text)
  let (whole, rest) ← int rest
  let (parts, rest) ← fraction rest
  let (power, rest) ← exponent rest
  some (minus ++ whole ++ parts ++ power, rest)

/-- One of the three words. -/
def literal (word : String) (value : Value) (text : List Char) : Option (Value × List Char) :=
  if word.toList.isPrefixOf text then some (value, text.drop word.toList.length) else none

section Composite

variable (value : Production Value)

/-- `member`, with the space around it. -/
def member (text : List Char) : Option ((List Char × Value) × List Char) := do
  let (name, rest) ← string (skip text)
  match skip rest with
  | ':' :: rest => do
      let (read, rest) ← value (skip rest)
      some ((name, read), skip rest)
  | _ => none

/-- The members of an object and its end, with at most `count` members. -/
def members : Nat → Production (List (List Char × Value))
  | 0, _ => none
  | count + 1, text => do
      let (first, rest) ← member value text
      match rest with
      | ',' :: rest => do
          let (others, rest) ← members count rest
          some (first :: others, rest)
      | '}' :: rest => some ([first], rest)
      | _ => none

/-- `object`, after its opening brace. -/
def object (text : List Char) : Option (Value × List Char) :=
  match skip text with
  | '}' :: rest => some (.object [], rest)
  | text => do
      let (read, rest) ← members value text.length text
      if (read.map Prod.fst).Nodup then some (.object read, rest) else none

/-- The items of an array and its end, with at most `count` items. -/
def items : Nat → Production (List Value)
  | 0, _ => none
  | count + 1, text => do
      let (first, rest) ← value (skip text)
      match skip rest with
      | ',' :: rest => do
          let (others, rest) ← items count rest
          some (first :: others, rest)
      | ']' :: rest => some ([first], rest)
      | _ => none

/-- `array`, after its opening bracket. -/
def array (text : List Char) : Option (Value × List Char) :=
  match skip text with
  | ']' :: rest => some (.array [], rest)
  | text => do
      let (read, rest) ← items value text.length text
      some (.array read, rest)

end Composite

/-- `value`, of at most a given depth. -/
def value : Nat → Production Value
  | 0, _ => none
  | depth + 1, text =>
    match text with
    | '{' :: rest => object (value depth) rest
    | '[' :: rest => array (value depth) rest
    | '"' :: rest => do
        let (read, rest) ← string ('"' :: rest)
        some (.string read, rest)
    | 't' :: rest => literal "true" (.bool true) ('t' :: rest)
    | 'f' :: rest => literal "false" (.bool false) ('f' :: rest)
    | 'n' :: rest => literal "null" .null ('n' :: rest)
    | text => do
        let (read, rest) ← number text
        some (.number read, rest)

/-- `JSON-text`.  A text is not deeper than it is long. -/
def document (text : List Char) : Option Value := do
  let (read, rest) ← value text.length (skip text)
  if skip rest = [] then some read else none

/-- The value of a document. -/
def read (bytes : List UInt8) : Option Value :=
  if Utf8.valid bytes then document (Utf8.text bytes) else none

@[simp] theorem read_encode (text : List Char) : read (Utf8.encode text) = document text := by
  simp [read]

/-! ## What a production makes of a text -/

/-- The production reads the text, and nothing after it, as `result` if it is good.
If not, nothing that starts with the text is read. -/
def Reads {α : Type} (production : Production α) (text : List Char) (good : Bool) (result : α) :
    Prop :=
  ∀ rest, production (text ++ rest) = if good then some (result, rest) else none

/-- A value of depth `least` is read so at every larger depth. -/
def ReadsValue (least : Nat) (text : List Char) (good : Bool) (result : Value) : Prop :=
  ∀ depth, least ≤ depth → Reads (value depth) text good result

variable {result : Value} {least : Nat} {good : Bool}

theorem ReadsValue.mono {greater : Nat} {text : List Char}
    (h : ReadsValue least text good result) (hle : least ≤ greater) :
    ReadsValue greater text good result :=
  fun depth hdepth => h depth (Nat.le_trans hle hdepth)

/-- The text starts with something that is not space. -/
def Starts (text : List Char) : Prop := ∃ c rest, text = c :: rest ∧ isSpace c = false

theorem Starts.skip_append {text : List Char} (h : Starts text) (rest : List Char) :
    skip (text ++ rest) = text ++ rest := by
  obtain ⟨c, others, rfl, hc⟩ := h
  exact dropWhile_cons_of_neg (by simp [hc])

theorem ReadsValue.document {text : List Char}
    (h : ReadsValue least text good result) (hstarts : Starts text) (hleast : least ≤ text.length)
    (space : List Char) (hspace : skip space = []) :
    document (text ++ space) = if good then some result else none := by
  have hval := h (text ++ space).length (by rw [length_append]; omega) space
  rw [Json.document, hstarts.skip_append, hval]
  cases good with
  | false => rfl
  | true => simp [hspace]

/-! ### Strings -/

/-- A way to write characters into strings, with the characters for which it works. -/
def Escapes (write : Char → List Char) (works : Char → Bool) : Prop :=
  ∀ c count rest, chars (count + 1) (write c ++ rest) =
    if works c then (chars count rest).map fun read => (c :: read.1, read.2) else none

section Strings

variable {write : Char → List Char} {works : Char → Bool} (h : Escapes write works)

include h in
theorem Escapes.ne_nil (c : Char) : write c ≠ [] := by
  intro hnil
  have hend := h c 0 ['"']
  rw [hnil] at hend
  simp [chars] at hend

include h in
theorem Escapes.length_le (text : List Char) : text.length ≤ (text.flatMap write).length := by
  induction text with
  | nil => simp
  | cons c text ih =>
    have hpos := List.length_pos_of_ne_nil (h.ne_nil c)
    rw [List.flatMap_cons, List.length_append, List.length_cons]
    omega

include h in
theorem Escapes.chars_flatMap {text : List Char} {count : Nat}
    (hcount : text.length < count) (rest : List Char) :
    chars count (text.flatMap write ++ '"' :: rest) =
      if text.all works then some (text, rest) else none := by
  induction text generalizing count with
  | nil =>
    obtain ⟨count, rfl⟩ := Nat.exists_eq_succ_of_ne_zero (Nat.ne_of_gt hcount)
    simp [chars]
  | cons c text ih =>
    obtain ⟨count, rfl⟩ := Nat.exists_eq_succ_of_ne_zero (Nat.ne_of_gt (Nat.zero_lt_of_lt hcount))
    rw [flatMap_cons, append_assoc, h c, ih (Nat.lt_of_succ_lt_succ hcount),
      all_cons]
    cases works c with
    | false => rfl
    | true => cases text.all works <;> rfl

/-- A text between quotation marks. -/
def quoted (write : Char → List Char) (text : List Char) : List Char :=
  '"' :: (text.flatMap write ++ ['"'])

theorem starts_quoted (write : Char → List Char) (text : List Char) : Starts (quoted write text) :=
  ⟨_, _, rfl, by decide⟩

include h in
theorem Escapes.reads_string (text : List Char) :
    Reads string (quoted write text) (text.all works) text := by
  intro rest
  have hlen := h.length_le text
  have hcount : text.length < (text.flatMap write ++ '"' :: rest).length := by
    rw [List.length_append, List.length_cons]
    omega
  rw [quoted, List.cons_append, List.append_assoc]
  exact h.chars_flatMap hcount rest

include h in
theorem Escapes.reads_value (text : List Char) :
    ReadsValue 1 (quoted write text) (text.all works) (.string text) := by
  intro depth hdepth rest
  obtain ⟨depth, rfl⟩ := Nat.exists_eq_succ_of_ne_zero (Nat.ne_of_gt hdepth)
  have hstring := h.reads_string text rest
  rw [quoted, List.cons_append] at hstring ⊢
  rw [value, hstring]
  cases text.all works <;> rfl

end Strings

/-- A character that stands for itself. -/
def plain (c : Char) : Bool := c ≠ '"' && c ≠ '\\' && 0x20 ≤ c.toNat

variable {c : Char}

theorem chars_plain (h : plain c = true) (count : Nat) (rest : List Char) :
    chars (count + 1) (c :: rest) = (chars count rest).map fun read => (c :: read.1, read.2) := by
  simp only [plain, Bool.and_eq_true, decide_eq_true_eq] at h
  rw [chars, if_neg h.1.1, if_neg h.1.2, if_neg (Nat.not_lt.mpr h.2)]
  cases chars count rest <;> rfl

theorem chars_escape (text : List Char) (h : Reads escape text true c) (count : Nat)
    (rest : List Char) : chars (count + 1) ('\\' :: (text ++ rest)) =
      (chars count rest).map fun read => (c :: read.1, read.2) := by
  rw [chars, h rest]
  cases hrest : chars count rest <;> simp [hrest]

/-- An escape that does not exist. -/
theorem chars_unknown {letter : Char} (h : ∀ rest, escape (letter :: rest) = none) (count : Nat)
    (rest : List Char) : chars (count + 1) ('\\' :: letter :: rest) = none := by
  rw [chars, h]
  rfl

/-- A number below 65536 in four hexadecimal digits. -/
def hexText (n : Nat) : List Char :=
  [Nat.digitChar (n / 4096 % 16), Nat.digitChar (n / 256 % 16), Nat.digitChar (n / 16 % 16),
    Nat.digitChar (n % 16)]

theorem hexDigit_digitChar (n : Nat) : hexDigit (Nat.digitChar (n % 16)) = some (n % 16) := by
  have hall : ∀ d : Fin 16, hexDigit (Nat.digitChar d) = some d.val := by decide
  exact hall ⟨n % 16, Nat.mod_lt n (by decide)⟩

theorem reads_codeUnit {n : Nat} (h : n < 0x10000) : Reads codeUnit (hexText n) true n := by
  intro rest
  have hsum : ((n / 4096 % 16 * 16 + n / 256 % 16) * 16 + n / 16 % 16) * 16 + n % 16 = n := by
    omega
  simp only [hexText, cons_append, nil_append, codeUnit, hexDigit_digitChar,
    bind_eq_bind, bind_some, hsum, if_true]

/-- A character below 65536 as an escape. -/
theorem reads_escape_unicode (h : c.toNat < 0x10000) :
    Reads escape ('u' :: hexText c.toNat) true c := by
  intro rest
  have hvalid : c.toNat < 0xd800 ∨ 0xdfff < c.toNat ∧ c.toNat < 0x110000 := c.valid
  rw [cons_append, escape, unicodeEscape, reads_codeUnit h rest]
  simp only [if_true, bind_eq_bind, bind_some]
  rw [if_neg (by omega), if_neg (by omega), Char.ofNat_toNat]

/-! ### String tokens -/

/-- A `char` of the grammar.  The grammar takes every code unit, also one half of a
surrogate pair without the other. -/
inductive Piece where
  | unescaped (c : Char) (hplain : plain c = true)
  | short (letter c : Char) (hescape : escape [letter] = some (c, []))
  | unit (digits : List Char) (code : Nat) (hcode : codeUnit digits = some (code, []))

def Piece.text : Piece → List Char
  | .unescaped c _ => [c]
  | .short letter _ _ => ['\\', letter]
  | .unit digits _ _ => '\\' :: 'u' :: digits

/-- The token of a string. -/
def tokenText (pieces : List Piece) : List Char := '"' :: (pieces.flatMap Piece.text ++ ['"'])

/-- The text that a token stands for: none if a half of a surrogate pair stands alone or
in the wrong order. -/
def denoted : List Piece → Option (List Char)
  | [] => some []
  | .unescaped c _ :: rest => (denoted rest).map (c :: ·)
  | .short _ c _ :: rest => (denoted rest).map (c :: ·)
  | .unit _ first _ :: .unit digits second hcode :: rest =>
    if 0xd800 ≤ first ∧ first < 0xe000 then
      if first < 0xdc00 ∧ 0xdc00 ≤ second ∧ second < 0xe000 then
        (denoted rest).map
          (Char.ofNat (0x10000 + (first - 0xd800) * 0x400 + (second - 0xdc00)) :: ·)
      else none
    else (denoted (.unit digits second hcode :: rest)).map (Char.ofNat first :: ·)
  | .unit _ first _ :: rest =>
    if 0xd800 ≤ first ∧ first < 0xe000 then none
    else (denoted rest).map (Char.ofNat first :: ·)

variable {code : Nat} {digits : List Char} {hcode : codeUnit digits = some (code, [])}

/-- A code unit that is no half of a surrogate pair. -/
theorem denoted_unit (h : ¬ (0xd800 ≤ code ∧ code < 0xe000)) (rest : List Piece) :
    denoted (.unit digits code hcode :: rest) = (denoted rest).map (Char.ofNat code :: ·) := by
  match rest with
  | [] => simp only [denoted, if_neg h]
  | .unescaped _ _ :: _ => simp only [denoted, if_neg h]
  | .short _ _ _ :: _ => simp only [denoted, if_neg h]
  | .unit _ _ _ :: _ => rw [denoted, if_neg h]

/-- Four digits at the front of a text. -/
theorem codeUnit_eq_some {text rest : List Char} (h : codeUnit text = some (code, rest)) :
    ∃ digits, text = digits ++ rest ∧ codeUnit digits = some (code, []) := by
  unfold codeUnit at h
  split at h
  · next a b c d others =>
    simp only [bind_eq_bind, bind_eq_some_iff, Option.some.injEq, Prod.mk.injEq] at h
    obtain ⟨v, hv, w, hw, x, hx, y, hy, hcode, rfl⟩ := h
    refine ⟨[a, b, c, d], rfl, ?_⟩
    simp only [codeUnit, hv, hw, hx, hy, bind_eq_bind, bind_some, hcode]
  · cases h

/-- What an escape reads is a short escape or one or two code units. -/
theorem escape_eq_some {text rest : List Char} (h : escape text = some (c, rest)) :
    ∃ pieces : List Piece, '\\' :: text = pieces.flatMap Piece.text ++ rest ∧
      ∀ others, denoted (pieces ++ others) = (denoted others).map (c :: ·) := by
  have hshort : ∀ letter, escape [letter] = some (c, []) → text = letter :: rest →
      ∃ pieces : List Piece, '\\' :: text = pieces.flatMap Piece.text ++ rest ∧
        ∀ others, denoted (pieces ++ others) = (denoted others).map (c :: ·) := by
    intro letter hletter htext
    exact ⟨[.short letter c hletter], by rw [htext]; rfl, fun others => by
      rw [singleton_append, denoted]⟩
  unfold escape at h
  split at h
  case h_9 =>
    next tail =>
    unfold unicodeEscape at h
    simp only [bind_eq_bind, bind_eq_some_iff] at h
    obtain ⟨⟨first, afterFirst⟩, hfirst, h⟩ := h
    obtain ⟨digits, rfl, hdigits⟩ := codeUnit_eq_some hfirst
    dsimp only at h
    split at h
    · next hhigh =>
      split at h
      · next _ afterMark =>
        simp only [bind_eq_some_iff] at h
        obtain ⟨⟨second, afterSecond⟩, hsecond, h⟩ := h
        obtain ⟨digits', rfl, hdigits'⟩ := codeUnit_eq_some hsecond
        split at h
        · next hlow =>
          obtain ⟨rfl, rfl⟩ := Prod.mk.inj (Option.some.inj h)
          refine ⟨[.unit digits first hdigits, .unit digits' second hdigits'], ?_, fun others => ?_⟩
          · simp [Piece.text]
          · rw [cons_append, singleton_append, denoted, if_pos (by omega),
              if_pos (by omega)]
        · cases h
      · cases h
    · next hhigh =>
      split at h
      · cases h
      next hlow =>
      cases h
      refine ⟨[.unit digits first hdigits], ?_, fun others => ?_⟩
      · simp [Piece.text]
      · rw [singleton_append, denoted_unit (by omega)]
  case h_10 => cases h
  all_goals
    cases h
    exact hshort _ rfl rfl

theorem chars_eq_some {count : Nat} :
    ∀ {text read rest : List Char}, chars count text = some (read, rest) →
      ∃ pieces : List Piece, text = pieces.flatMap Piece.text ++ '"' :: rest ∧
        denoted pieces = some read := by
  induction count with
  | zero =>
    intro text read rest h
    cases h
  | succ count ih =>
    intro text read rest h
    cases text with
    | nil => cases h
    | cons c tail =>
      rw [chars] at h
      split at h
      · next hquote =>
        cases h
        exact ⟨[], by rw [hquote]; rfl, rfl⟩
      next hquote =>
      split at h
      · next hmark =>
        simp only [Option.bind_eq_bind, Option.bind_eq_some_iff] at h
        obtain ⟨⟨escaped, after⟩, hescape, ⟨others, last⟩, hothers, h⟩ := h
        cases h
        obtain ⟨front, htext, hfront⟩ := escape_eq_some hescape
        obtain ⟨pieces, hafter, hpieces⟩ := ih hothers
        dsimp only at hafter hpieces ⊢
        refine ⟨front ++ pieces, ?_, ?_⟩
        · rw [hmark, htext, hafter, List.flatMap_append, List.append_assoc]
        · rw [hfront, hpieces, Option.map_some]
      · next hmark =>
        split at h
        · cases h
        next hcontrol =>
        simp only [Option.bind_eq_bind, Option.bind_eq_some_iff] at h
        obtain ⟨⟨others, last⟩, hothers, h⟩ := h
        cases h
        obtain ⟨pieces, hafter, hpieces⟩ := ih hothers
        have hplain : plain c = true := by
          simp only [plain, Bool.and_eq_true, decide_eq_true_eq]
          exact ⟨⟨hquote, hmark⟩, Nat.le_of_not_lt hcontrol⟩
        refine ⟨.unescaped c hplain :: pieces, ?_, ?_⟩
        · rw [hafter]
          rfl
        · rw [denoted, hpieces, Option.map_some]

/-- A text that is read as a string is a token of it. -/
theorem string_eq_some {text read : List Char} (h : string text = some (read, [])) :
    ∃ pieces : List Piece, text = tokenText pieces ∧ denoted pieces = some read := by
  unfold string at h
  split at h
  · obtain ⟨pieces, htext, hpieces⟩ := chars_eq_some h
    exact ⟨pieces, by rw [tokenText, htext], hpieces⟩
  · cases h

/-! ### Objects -/

/-- The members of an object as they are written, and its end. -/
def membersText : List (List Char × List Char) → List Char
  | [] => ['}']
  | [member] => member.1 ++ ':' :: member.2 ++ ['}']
  | member :: next :: others =>
    member.1 ++ ':' :: member.2 ++ ',' :: membersText (next :: others)

def objectText (written : List (List Char × List Char)) : List Char := '{' :: membersText written

theorem starts_objectText (written : List (List Char × List Char)) : Starts (objectText written) :=
  ⟨_, _, rfl, by decide⟩

theorem length_le_membersText (written : List (List Char × List Char)) :
    written.length ≤ (membersText written).length := by
  induction written using membersText.induct with
  | case1 => simp
  | case2 member =>
    rw [membersText, List.length_append]
    exact Nat.le_add_left _ _
  | case3 member next others ih =>
    simp only [membersText, List.length_append, List.length_cons] at ih ⊢
    omega

/-- A member, before the end of the object or the next member, is read as `read.2` if
`read.1` says so. -/
structure ReadsMember (least : Nat) (written : List Char × List Char)
    (read : Bool × (List Char × Value)) : Prop where
  quoted : ∃ rest, written.1 = '"' :: rest
  reads : ∀ depth, least ≤ depth → ∀ c rest, isSpace c = false →
    member (value depth) (written.1 ++ ':' :: written.2 ++ c :: rest) =
      if read.1 then some (read.2, c :: rest) else none

section Objects

variable {least : Nat}

theorem Escapes.readsMember {write : Char → List Char} {works : Char → Bool}
    (h : Escapes write works) (name : List Char) {text : List Char}
    (hval : ReadsValue least text good result) (hstarts : Starts text) :
    ReadsMember least (Json.quoted write name, text) (name.all works && good, (name, result)) where
  quoted := ⟨_, rfl⟩
  reads depth hdepth c rest hc := by
    have hcolon : skip (':' :: (text ++ c :: rest)) = ':' :: (text ++ c :: rest) :=
      dropWhile_cons_of_neg (by decide)
    have hnext : skip (c :: rest) = c :: rest := dropWhile_cons_of_neg (by simp [hc])
    rw [member, append_assoc, (starts_quoted write name).skip_append, h.reads_string]
    cases name.all works with
    | false => rfl
    | true =>
      simp only [if_true, bind_eq_bind, bind_some, cons_append, hcolon,
        hstarts.skip_append, hval depth hdepth (c :: rest), Bool.true_and]
      cases good with
      | false => rfl
      | true => simp [hnext]

variable {written : List (List Char × List Char)} {read : List (Bool × (List Char × Value))}
  (h : List.Forall₂ (ReadsMember least) written read)

include h in
theorem members_membersText
    (hsome : written ≠ []) {depth : Nat} (hdepth : least ≤ depth) {count : Nat}
    (hcount : written.length ≤ count) (rest : List Char) :
    members (value depth) count (membersText written ++ rest) =
      if read.all Prod.fst then some (read.map Prod.snd, rest) else none := by
  induction h generalizing count with
  | nil => exact absurd rfl hsome
  | @cons first member others read hfirst hothers ih =>
    obtain ⟨count, rfl⟩ := Nat.exists_eq_succ_of_ne_zero (Nat.ne_of_gt (Nat.zero_lt_of_lt hcount))
    obtain ⟨good, result⟩ := member
    rw [members, all_cons]
    cases others with
    | nil =>
      cases hothers
      rw [membersText, append_assoc, singleton_append,
        hfirst.reads depth hdepth '}' rest (by decide)]
      cases good <;> rfl
    | cons next others =>
      have hrest := ih (cons_ne_nil _ _) (Nat.le_of_succ_le_succ hcount)
      rw [membersText, append_assoc, cons_append,
        hfirst.reads depth hdepth ',' (membersText (next :: others) ++ rest) (by decide)]
      cases good with
      | false => rfl
      | true =>
        simp only [if_true, bind_eq_bind, bind_some, hrest, Bool.true_and]
        cases read.all Prod.fst <;> rfl

include h in
/-- The text of members starts with the name of the first one. -/
theorem quoted_membersText (hsome : written ≠ []) (rest : List Char) :
    ∃ others, membersText written ++ rest = '"' :: others := by
  cases h with
  | nil => exact absurd rfl hsome
  | @cons first _ tail _ hfirst _ =>
    obtain ⟨body, hbody⟩ := hfirst.quoted
    cases tail with
    | nil => exact ⟨_, by rw [membersText, hbody]; rfl⟩
    | cons next others => exact ⟨_, by rw [membersText, hbody]; rfl⟩

/-- An object that starts with a name is not empty. -/
theorem object_of_quoted {value : Production Value} {text : List Char}
    (h : ∃ rest, text = '"' :: rest) :
    object value text = (members value text.length text).bind fun read =>
      if (read.1.map Prod.fst).Nodup then some (.object read.1, read.2) else none := by
  obtain ⟨rest, rfl⟩ := h
  rfl

include h in
/-- An object is read if its members are and have different names. -/
theorem reads_object (hsome : written ≠ []) : ReadsValue (least + 1) (objectText written)
      (read.all Prod.fst && decide ((read.map Prod.snd).map Prod.fst).Nodup)
      (.object (read.map Prod.snd)) := by
  intro depth hdepth rest
  obtain ⟨depth, rfl⟩ := Nat.exists_eq_succ_of_ne_zero (Nat.ne_of_gt (Nat.zero_lt_of_lt hdepth))
  have hcount : written.length ≤ (membersText written ++ rest).length := by
    rw [length_append]
    exact Nat.le_add_right_of_le (length_le_membersText written)
  rw [objectText, cons_append, value, object_of_quoted (quoted_membersText h hsome rest),
    members_membersText h hsome (Nat.le_of_succ_le_succ hdepth) hcount rest]
  cases read.all Prod.fst with
  | false => rfl
  | true => simp

include h in
theorem reads_object_of_nodup
    (hsome : written ≠ []) (hnodup : ((read.map Prod.snd).map Prod.fst).Nodup) :
    ReadsValue (least + 1) (objectText written) (read.all Prod.fst)
      (.object (read.map Prod.snd)) := by
  have hread := reads_object h hsome
  rwa [decide_eq_true hnodup, Bool.and_true] at hread

end Objects

end Json
