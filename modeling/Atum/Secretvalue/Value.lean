import Mathlib.Data.Nat.Bitwise
import Atum.Secretvalue.Documents

/-!
# Secret values in JSON

`Value` is a byte string that is written with `appendQuotedBytes` and read back with
`decodeJSONString`, a decoder of its own that goes over the bytes of a token by index.

A read at an index outside of the token would panic, and so does the model.  The decoder
tests the bounds before each read, and what it does at an index is a function of the bytes
that are left there (`decodeLoop_gives`).  On these bytes it agrees with the grammar piece
by piece (`loopOf_pieces`).
-/

namespace Atum.Secretvalue

open Atum.Go Utf8 List Option Nat

def maxValueBytes : Nat := 2 ^ 20

/-! ## The decoder -/

/-- `data[index]` -/
def byteAt (data : Bytes) (index : Nat) : Outcome UInt8 :=
  match data[index]? with
  | some byte => .ok byte
  | none => .panics "index out of range"

/-- `data[low:high]` -/
def slice (data : Bytes) (low high : Nat) : Outcome Bytes :=
  if low ≤ high ∧ high ≤ data.length then .ok ((data.drop low).take (high - low))
  else .panics "slice bounds out of range"

/-- The switch of `decodeHexRune` on a digit. -/
def hexValue (character : UInt8) : Option UInt16 :=
  if 0x30 ≤ character ∧ character ≤ 0x39 then some (character - 0x30).toUInt16
  else if 0x61 ≤ character ∧ character ≤ 0x66 then some ((character - 0x61).toUInt16 + 10)
  else if 0x41 ≤ character ∧ character ≤ 0x46 then some ((character - 0x41).toUInt16 + 10)
  else none

/-- The loop of `decodeHexRune`. -/
def hexRune : UInt16 → Bytes → Option UInt16
  | value, [] => some value
  | value, character :: rest =>
    match hexValue character with
    | some digit => hexRune (value <<< 4 ||| digit) rest
    | none => none

def decodeHexRune (data : Bytes) (start : Nat) : Outcome (UInt16 × Nat) :=
  if start + 4 > data.length - 1 then
    .error "secret value has an incomplete Unicode escape"
  else
    (slice data start (start + 4)).bind fun digits =>
      match hexRune 0 digits with
      | some value => .ok (value, start + 4)
      | none => .error "secret value has an invalid Unicode escape"

/-- `utf8.RuneError` -/
def runeError : Nat := 0xfffd

/-- `utf16.IsSurrogate` -/
def isSurrogate (r : Nat) : Prop := 0xd800 ≤ r ∧ r < 0xe000

instance (r : Nat) : Decidable (isSurrogate r) := inferInstanceAs (Decidable (_ ∧ _))

/-- `utf16.DecodeRune` -/
def decodeRune (r1 r2 : Nat) : Nat :=
  if 0xd800 ≤ r1 ∧ r1 < 0xdc00 ∧ 0xdc00 ≤ r2 ∧ r2 < 0xe000 then
    ((r1 - 0xd800) <<< 10 ||| (r2 - 0xdc00)) + 0x10000
  else runeError

/-- The bytes that `utf8.AppendRune` appends. -/
def appendedRune (r : Nat) : Bytes :=
  String.utf8EncodeChar (if r.isValidChar then Char.ofNat r else Char.ofNat runeError)

/-- What follows the first half of a surrogate pair: the appended bytes, and the last
index. -/
def decodeSurrogate (data : Bytes) (first index : Nat) : Outcome (Bytes × Nat) :=
  if index + 6 ≥ data.length then .error "secret value has an incomplete UTF-16 surrogate pair"
  else
    (byteAt data (index + 1)).bind fun mark =>
      if mark ≠ 0x5c then .error "secret value has an incomplete UTF-16 surrogate pair"
      else
        (byteAt data (index + 2)).bind fun letter =>
          if letter ≠ 0x75 then .error "secret value has an incomplete UTF-16 surrogate pair"
          else
            (decodeHexRune data (index + 3)).bind fun (second, afterSecond) =>
              let runeValue := decodeRune first second.toNat
              if runeValue = runeError then
                .error "secret value has an invalid UTF-16 surrogate pair"
              else .ok (appendedRune runeValue, afterSecond - 1)

/-- The case `u` of the escapes: the appended bytes, and the last index. -/
def decodeUnicodeEscape (data : Bytes) (index : Nat) : Outcome (Bytes × Nat) :=
  (decodeHexRune data (index + 1)).bind fun (first, next) =>
    if isSurrogate first.toNat then decodeSurrogate data first.toNat (next - 1)
    else .ok (appendedRune first.toNat, next - 1)

/-- The other cases of the escapes. -/
def shortEscape (letter : UInt8) : Option UInt8 :=
  if letter = 0x22 ∨ letter = 0x5c ∨ letter = 0x2f then some letter
  else if letter = 0x62 then some 0x08
  else if letter = 0x66 then some 0x0c
  else if letter = 0x6e then some 0x0a
  else if letter = 0x72 then some 0x0d
  else if letter = 0x74 then some 0x09
  else none

/-- The body of the loop of `decodeJSONString` before the check of the limit: the appended
bytes, and the last index. -/
def decodeCharacter (data : Bytes) (index : Nat) : Outcome (Bytes × Nat) :=
  (byteAt data index).bind fun character =>
    if character ≠ 0x5c then
      if character < 0x20 then .error "secret value contains an unescaped control character"
      else .ok ([character], index)
    else if index + 1 ≥ data.length - 1 then .error "secret value has an incomplete JSON escape"
    else
      (byteAt data (index + 1)).bind fun letter =>
        match shortEscape letter with
        | some byte => .ok ([byte], index + 1)
        | none =>
          if letter = 0x75 then decodeUnicodeEscape data (index + 1)
          else .error "secret value has an invalid JSON escape"

/-- The text of the error about the limit. -/
def exceedsLimit (limit : Int) : String := "secret value exceeds " ++ toString limit ++ " bytes"

/-- The loop of `decodeJSONString`, with at most so many rounds, and what follows it. -/
def decodeLoop (data : Bytes) (limit : Int) : Nat → Nat → Bytes → Outcome Bytes
  | 0, _, _ => .diverges
  | rounds + 1, index, result =>
    if index < data.length - 1 then
      (decodeCharacter data index).bind fun (appended, last) =>
        if ((result ++ appended).length : Int) > limit then .error (exceedsLimit limit)
        else decodeLoop data limit rounds (last + 1) (result ++ appended)
    else if valid result then .ok result
    else .error "secret value is not valid UTF-8"

/-- The panic of `make` with a negative capacity. -/
def capOutOfRange : String := "makeslice: cap out of range"

def decodeJSONString (data : Bytes) (limit : Int) : Outcome Bytes :=
  if data.length < 2 then .error "secret value must be a JSON string"
  else
    (byteAt data 0).bind fun first =>
      if first ≠ 0x22 then .error "secret value must be a JSON string"
      else
        (byteAt data (data.length - 1)).bind fun last =>
          if last ≠ 0x22 then .error "secret value must be a JSON string"
          else if min (data.length - 2 : Int) limit < 0 then .panics capOutOfRange
          else decodeLoop data limit data.length 1 []

def marshalJSON (value : Bytes) : Except String Bytes :=
  if value.length > maxValueBytes ∨ valid value = false then
    .error "secret value is invalid or exceeds its bound"
  else .ok (appendQuotedBytes [] value)

/-- `UnmarshalJSON`: the value after the call.  The pointer may be nil. -/
def unmarshalJSON (value : Option Bytes) (data : Bytes) : Outcome Bytes :=
  match value with
  | none => .error "secret value destination is nil"
  | some _ => decodeJSONString data maxValueBytes

/-! ## The bytes that are left

What the decoder does at an index depends on the bytes from there on only.  The readers
of this section give the value and the bytes that are still left, or nothing for an
error. -/

/-- `decodeHexRune` on the bytes that are left. -/
def unitOf : Bytes → Option (Nat × Bytes)
  | a :: b :: c :: d :: next :: left =>
    (hexRune 0 [a, b, c, d]).map fun value => (value.toNat, next :: left)
  | _ => none

/-- `decodeSurrogate` on the bytes that are left. -/
def pairOf (first : Nat) : Bytes → Option (Bytes × Bytes)
  | mark :: letter :: rest =>
    if mark = 0x5c ∧ letter = 0x75 then
      (unitOf rest).bind fun (second, left) =>
        if decodeRune first second = runeError then none
        else some (appendedRune (decodeRune first second), left)
    else none
  | _ => none

/-- `decodeCharacter` on the bytes that are left. -/
def characterOf : Bytes → Option (Bytes × Bytes)
  | character :: letter :: rest =>
    if character ≠ 0x5c then
      if character < 0x20 then none else some ([character], letter :: rest)
    else if rest = [] then none
    else
      match shortEscape letter with
      | some byte => some ([byte], rest)
      | none =>
        if letter = 0x75 then
          (unitOf rest).bind fun (first, left) =>
            if isSurrogate first then pairOf first left else some (appendedRune first, left)
        else none
  | _ => none

/-- `decodeLoop` on the bytes that are left. -/
def loopOf (limit : Int) : Nat → Bytes → Bytes → Option Bytes
  | 0, _, _ => none
  | rounds + 1, rest, result =>
    if 1 < rest.length then
      (characterOf rest).bind fun (appended, left) =>
        if ((result ++ appended).length : Int) > limit then none
        else loopOf limit rounds left (result ++ appended)
    else if valid result then some result
    else none

/-- An outcome at an index is what a reader gives for the bytes from there on. -/
def Follows (start : Nat) (rest : Bytes) (outcome : Outcome (Bytes × Nat)) :
    Option (Bytes × Bytes) → Prop
  | none => ∃ err, outcome = .error err
  | some (appended, left) => left ≠ [] ∧ ∃ read last, rest = read ++ left ∧ read ≠ [] ∧
      outcome = .ok (appended, last) ∧ last + 1 = start + read.length

variable {data : Bytes}

theorem byteAt_ok {index : Nat} (h : index < data.length) :
    byteAt data index = .ok (data[index]) := by
  rw [byteAt, List.getElem?_eq_getElem h]

theorem byteAt_append (before rest : Bytes) (offset : Nat) :
    byteAt (before ++ rest) (before.length + offset) = byteAt rest offset := by
  rw [byteAt, byteAt, List.getElem?_append_right (Nat.le_add_right _ _), Nat.add_sub_cancel_left]

theorem unitOf_of_short {rest : Bytes} (h : rest.length < 5) : unitOf rest = none := by
  unfold unitOf
  split
  · simp only [length_cons] at h
    omega
  · rfl

theorem decodeHexRune_eq (before rest : Bytes) :
    match unitOf rest with
    | none => ∃ err, decodeHexRune (before ++ rest) before.length = .error err
    | some (code, left) => left ≠ [] ∧ (∃ read, rest = read ++ left ∧ read.length = 4) ∧
        ∃ value, value.toNat = code ∧
          decodeHexRune (before ++ rest) before.length = .ok (value, before.length + 4) := by
  match rest with
  | [] | [_] | [_, _] | [_, _, _] | [_, _, _, _] =>
    exact ⟨_, if_pos (by simp only [length_append, length_cons, length_nil]; omega)⟩
  | a :: b :: c :: d :: next :: left =>
    have hslice : slice (before ++ a :: b :: c :: d :: next :: left) before.length
        (before.length + 4) = .ok [a, b, c, d] := by
      rw [slice, if_pos (by simp), drop_left, Nat.add_sub_cancel_left]
      rfl
    rw [decodeHexRune, if_neg (by simp), hslice, unitOf]
    simp only [Outcome.bind]
    cases hexRune 0 [a, b, c, d] with
    | none => exact ⟨_, rfl⟩
    | some value => exact ⟨by simp, ⟨[a, b, c, d], rfl, rfl⟩, value, rfl, rfl⟩

/-- Four digits, and what the decoder does behind them. -/
theorem Follows.hexRune {front read rest : Bytes} {start : Nat}
    {f : UInt16 × Nat → Outcome (Bytes × Nat)} {g : Nat × Bytes → Option (Bytes × Bytes)}
    (h : ∀ value digits left, rest = digits ++ left → digits.length = 4 → left ≠ [] →
      Follows start (read ++ rest) (f (value, front.length + 4)) (g (value.toNat, left))) :
    Follows start (read ++ rest) ((decodeHexRune (front ++ rest) front.length).bind f)
      ((unitOf rest).bind g) := by
  have hhex := decodeHexRune_eq front rest
  cases hunit : unitOf rest with
  | none =>
    rw [hunit] at hhex
    obtain ⟨err, herr⟩ := hhex
    rw [herr]
    exact ⟨err, rfl⟩
  | some unit =>
    obtain ⟨code, left⟩ := unit
    rw [hunit] at hhex
    obtain ⟨hleft, ⟨digits, hdigits, hlen⟩, value, rfl, hok⟩ := hhex
    rw [hok]
    exact h value digits left hdigits hlen hleft

/-- Bytes that were read before. -/
theorem Follows.shift {start : Nat} {read rest : Bytes} {outcome : Outcome (Bytes × Nat)}
    {result : Option (Bytes × Bytes)} (h : Follows (start + read.length) rest outcome result) :
    Follows start (read ++ rest) outcome result := by
  match result with
  | none => exact h
  | some (appended, left) =>
    obtain ⟨hleft, more, last, rfl, hne, hok, hlast⟩ := h
    refine ⟨hleft, read ++ more, last, (append_assoc ..).symm, by simp [hne], hok, ?_⟩
    rw [hlast, length_append, add_assoc]

theorem decodeSurrogate_follows (front rest : Bytes) (first : Nat) {index : Nat}
    (hidx : front.length = index + 1) :
    Follows front.length rest (decodeSurrogate (front ++ rest) first index)
      (pairOf first rest) := by
  unfold decodeSurrogate
  match rest with
  | [] | [_] => exact ⟨_, if_pos (by simp; omega)⟩
  | mark :: letter :: rest =>
    have hmark := byteAt_append front (mark :: letter :: rest) 0
    have hletter := byteAt_append front (mark :: letter :: rest) 1
    rw [hidx] at hmark hletter
    rw [pairOf]
    split
    · next hshort =>
      rw [unitOf_of_short (by simp only [length_append, length_cons] at hshort; omega)]
      split <;> exact ⟨_, rfl⟩
    rw [hmark, hletter]
    simp only [Outcome.bind, byteAt, List.getElem?_cons_zero, List.getElem?_cons_succ]
    by_cases hm : mark = 0x5c
    swap
    · rw [if_pos hm, if_neg fun h => hm h.1]
      exact ⟨_, rfl⟩
    rw [if_neg (not_not.mpr hm)]
    by_cases hl : letter = 0x75
    swap
    · rw [if_pos hl, if_neg fun h => hl h.2]
      exact ⟨_, rfl⟩
    rw [if_neg (not_not.mpr hl), if_pos ⟨hm, hl⟩]
    have hfront : (front ++ [mark, letter]).length = index + 3 := by simp [hidx]
    have hdata : front ++ mark :: letter :: rest = (front ++ [mark, letter]) ++ rest := by simp
    rw [← hfront, hdata]
    refine @Follows.hexRune _ [mark, letter] _ _ _ _ fun value digits left hrest hlen hleft => ?_
    dsimp only
    split
    · exact ⟨_, rfl⟩
    · exact ⟨hleft, mark :: letter :: digits, _, by simp [hrest], by simp, rfl, by simp; omega⟩

theorem decodeCharacter_follows (before : Bytes) {rest : Bytes} (h : 1 < rest.length) :
    Follows before.length rest (decodeCharacter (before ++ rest) before.length)
      (characterOf rest) := by
  unfold decodeCharacter
  match rest with
  | character :: letter :: rest =>
    have hbyte := byteAt_append before (character :: letter :: rest) 0
    have hletter := byteAt_append before (character :: letter :: rest) 1
    rw [add_zero] at hbyte
    rw [characterOf, hbyte, hletter]
    simp only [Outcome.bind, byteAt, List.getElem?_cons_zero, List.getElem?_cons_succ]
    split
    · split
      · exact ⟨_, rfl⟩
      · exact ⟨by simp, [character], _, rfl, by simp, rfl, rfl⟩
    by_cases hrest : rest = []
    · rw [if_pos hrest, if_pos (by simp [hrest])]
      exact ⟨_, rfl⟩
    have hpos := length_pos_of_ne_nil hrest
    rw [if_neg hrest, if_neg (by simp only [length_append, length_cons]; omega)]
    split
    · exact ⟨hrest, [character, letter], _, rfl, by simp, rfl, rfl⟩
    split
    swap
    · exact ⟨_, rfl⟩
    have hdata : before ++ character :: letter :: rest =
        (before ++ [character, letter]) ++ rest := by
      simp
    have hfront : before.length + 1 + 1 = (before ++ [character, letter]).length := by simp
    rw [decodeUnicodeEscape, hfront, hdata]
    refine @Follows.hexRune _ [character, letter] _ _ _ _ fun value digits left hleft hlen hne => ?_
    dsimp only
    split
    · have hend : ((before ++ [character, letter]) ++ digits).length = before.length + 5 + 1 := by
        simp [hlen]
      have hpair := decodeSurrogate_follows _ left value.toNat hend
      rw [hend, append_assoc _ digits, ← hleft] at hpair
      rw [hleft, ← append_assoc [character, letter], ← hleft, ← hfront]
      exact Follows.shift (by simpa [hlen] using hpair)
    · exact ⟨hne, [character, letter] ++ digits, _, by simp [hleft], by simp, rfl, by simp; omega⟩

/-- An outcome is what a reader gives. -/
def Gives (outcome : Outcome Bytes) : Option Bytes → Prop
  | none => ∃ err, outcome = .error err
  | some bytes => outcome = .ok bytes

theorem Gives.returns {outcome : Outcome Bytes} {result : Option Bytes}
    (h : Gives outcome result) : outcome.Returns := by
  match result with
  | none =>
    obtain ⟨err, rfl⟩ := h
    trivial
  | some bytes =>
    obtain rfl : outcome = .ok bytes := h
    trivial

variable {limit : Int}

theorem decodeLoop_gives (rounds : Nat) : ∀ {before rest result : Bytes}, rest ≠ [] →
    rest.length ≤ rounds → Gives (decodeLoop (before ++ rest) limit rounds before.length result)
      (loopOf limit rounds rest result) := by
  induction rounds with
  | zero =>
    intro before rest result hne hlen
    exact absurd (length_eq_zero_iff.mp (by omega)) hne
  | succ rounds ih =>
    intro before rest result hne hlen
    have hpos := length_pos_of_ne_nil hne
    rw [decodeLoop, loopOf, length_append]
    by_cases hmore : 1 < rest.length
    swap
    · rw [if_neg (by omega), if_neg hmore]
      split
      · rfl
      · exact ⟨_, rfl⟩
    rw [if_pos (by omega), if_pos hmore]
    have hround := decodeCharacter_follows before hmore
    cases hchar : characterOf rest with
    | none =>
      rw [hchar] at hround
      obtain ⟨err, herr⟩ := hround
      rw [herr]
      exact ⟨err, rfl⟩
    | some found =>
      obtain ⟨appended, left⟩ := found
      rw [hchar] at hround
      obtain ⟨hleft, read, last, rfl, hread, hok, hlast⟩ := hround
      have hread := length_pos_of_ne_nil hread
      rw [hok]
      simp only [Outcome.bind, Option.bind_some]
      split
      · exact ⟨_, rfl⟩
      · rw [hlast, ← length_append, ← append_assoc]
        exact ih hleft (by rw [length_append] at hlen; omega)

/-- The decoder returns for every byte string, and it panics at a negative limit only. -/
theorem decodeJSONString_returns (data : Bytes) (limit : Int) :
    (0 ≤ limit → (decodeJSONString data limit).Returns) ∧
      ∀ reason, decodeJSONString data limit = .panics reason → reason = capOutOfRange := by
  suffices h : (decodeJSONString data limit).Returns ∨
      limit < 0 ∧ decodeJSONString data limit = .panics capOutOfRange by
    refine ⟨fun hlimit => h.elim id fun hpanics => absurd hpanics.1 (by omega), ?_⟩
    intro reason hreason
    rcases h with h | h
    · rw [hreason] at h
      exact h.elim
    · exact Outcome.panics.inj (hreason.symm.trans h.2)
  unfold decodeJSONString
  split
  · exact .inl trivial
  next hlen =>
  rw [byteAt_ok (by omega), byteAt_ok (by omega)]
  simp only [Outcome.bind]
  split
  · exact .inl trivial
  split
  · exact .inl trivial
  split
  · next hcap => exact .inr ⟨by omega, rfl⟩
  have hne : data ≠ [] := ne_nil_of_length_pos (by omega)
  obtain ⟨first, rest, rfl⟩ := exists_cons_of_ne_nil hne
  have hrest : rest ≠ [] := ne_nil_of_length_pos (by rw [length_cons] at hlen; omega)
  exact .inl (@decodeLoop_gives limit _ [first] _ _ hrest (Nat.le_succ _)).returns

/-! ## The pieces of a token -/

variable {digit : Nat}

theorem hexDigit_bound {c : Char} (h : Json.hexDigit c = some digit) : c.toNat < 128 := by
  have hbound : ∀ {high : Char}, high.toNat < 128 → c ≤ high → c.toNat < 128 := by
    intro high hhigh hle
    exact lt_of_le_of_lt (UInt32.le_iff_toNat_le.mp hle) hhigh
  unfold Json.hexDigit at h
  split at h
  · next hrange => exact hbound (by decide) hrange.2
  split at h
  · next hrange => exact hbound (by decide) hrange.2
  · split at h
    · next hrange => exact hbound (by decide) hrange.2
    · cases h

/-- The decoder and the grammar read the same digit. -/
theorem hexValue_of_hexDigit {c : Char} (h : Json.hexDigit c = some digit) :
    digit < 16 ∧ ∃ value, hexValue (UInt8.ofNat c.toNat) = some value ∧ value.toNat = digit := by
  have hall : ∀ n : Fin 128, ∀ digit, Json.hexDigit (Char.ofNat n) = some digit →
      digit < 16 ∧ (hexValue (UInt8.ofNat n)).map UInt16.toNat = some digit := by
    decide +kernel
  have hchar := hall ⟨c.toNat, hexDigit_bound h⟩ digit (by rwa [Char.ofNat_toNat])
  exact ⟨hchar.1, map_eq_some_iff.mp hchar.2⟩

/-- One round of the loop over the digits. -/
theorem toNat_shift_or {value digit : UInt16} (hval : value.toNat < 4096)
    (hdigit : digit.toNat < 16) :
    (value <<< 4 ||| digit).toNat = value.toNat * 16 + digit.toNat := by
  have hshift : (value <<< 4).toNat = value.toNat <<< 4 := by
    rw [UInt16.toNat_shiftLeft, mod_eq_of_lt]
    · rfl
    · rw [shiftLeft_eq]
      show value.toNat * 16 < 65536
      omega
  rw [UInt16.toNat_or, hshift, ← shiftLeft_add_eq_or_of_lt (by omega), shiftLeft_eq]

/-- The digits of a code unit in bytes. -/
theorem unitOf_encode {digits : List Char} {code : Nat} {left : Bytes}
    (h : Json.codeUnit digits = some (code, [])) (hleft : left ≠ []) :
    code < 0x10000 ∧ unitOf (encode digits ++ left) = some (code, left) := by
  unfold Json.codeUnit at h
  split at h
  swap
  · cases h
  next a b c d rest =>
  simp only [bind_eq_bind, bind_eq_some_iff, Option.some.injEq, Prod.mk.injEq] at h
  obtain ⟨v, hv, w, hw, x, hx, y, hy, rfl, rfl⟩ := h
  obtain ⟨next, left, rfl⟩ := exists_cons_of_ne_nil hleft
  obtain ⟨hv16, v', hv', hvnat⟩ := hexValue_of_hexDigit hv
  obtain ⟨hw16, w', hw', hwnat⟩ := hexValue_of_hexDigit hw
  obtain ⟨hx16, x', hx', hxnat⟩ := hexValue_of_hexDigit hx
  obtain ⟨hy16, y', hy', hynat⟩ := hexValue_of_hexDigit hy
  refine ⟨by omega, ?_⟩
  have hfirst : ((0 : UInt16) <<< 4 ||| v').toNat = v := by
    rw [toNat_shift_or (by decide) (by omega), hvnat]
    exact zero_add v
  have hsecond : (((0 : UInt16) <<< 4 ||| v') <<< 4 ||| w').toNat = v * 16 + w := by
    rw [toNat_shift_or (by omega) (by omega), hfirst, hwnat]
  have hthird : ((((0 : UInt16) <<< 4 ||| v') <<< 4 ||| w') <<< 4 ||| x').toNat =
      (v * 16 + w) * 16 + x := by
    rw [toNat_shift_or (by omega) (by omega), hsecond, hxnat]
  have hbytes : encode [a, b, c, d] ++ next :: left = UInt8.ofNat a.toNat :: UInt8.ofNat b.toNat ::
      UInt8.ofNat c.toNat :: UInt8.ofNat d.toNat :: next :: left := by
    simp only [encode_cons, encodeChar_of_lt (hexDigit_bound hv),
      encodeChar_of_lt (hexDigit_bound hw),
      encodeChar_of_lt (hexDigit_bound hx), encodeChar_of_lt (hexDigit_bound hy)]
    rfl
  rw [hbytes, unitOf]
  simp only [hexRune, hv', hw', hx', hy', map_some]
  rw [toNat_shift_or (by omega) (by omega), hthird, hynat]

/-- The bytes of the pieces that are left, and of the end of the token. -/
def tailBytes (pieces : List Json.Piece) : Bytes :=
  encode (pieces.flatMap Json.Piece.text) ++ [0x22]

theorem tailBytes_ne_nil (pieces : List Json.Piece) : tailBytes pieces ≠ [] := by
  simp [tailBytes]

theorem tailBytes_cons (piece : Json.Piece) (pieces : List Json.Piece) :
    tailBytes (piece :: pieces) = encode piece.text ++ tailBytes pieces := by
  rw [tailBytes, flatMap_cons, encode_append, append_assoc]
  rfl

variable {digits : List Char} {code first : Nat} {left : Bytes}
  {hcode : Json.codeUnit digits = some (code, [])}

theorem tailBytes_unit (pieces : List Json.Piece) : tailBytes (.unit digits code hcode :: pieces) =
    0x5c :: 0x75 :: (encode digits ++ tailBytes pieces) := by
  rw [tailBytes_cons]
  rfl

theorem characterOf_unit (pieces : List Json.Piece) :
    characterOf (tailBytes (.unit digits code hcode :: pieces)) =
      if isSurrogate code then pairOf code (tailBytes pieces)
      else some (appendedRune code, tailBytes pieces) := by
  have hleft := tailBytes_ne_nil pieces
  have hletter : shortEscape 0x75 = none := by decide
  rw [tailBytes_unit, characterOf, if_neg (by decide), if_neg (by simp [hleft])]
  simp only [hletter, if_pos, (unitOf_encode hcode hleft).2, Option.bind_some]

theorem pairOf_unit (pieces : List Json.Piece) :
    pairOf first (tailBytes (.unit digits code hcode :: pieces)) =
      if decodeRune first code = runeError then none
      else some (appendedRune (decodeRune first code), tailBytes pieces) := by
  rw [tailBytes_unit, pairOf, if_pos ⟨rfl, rfl⟩, (unitOf_encode hcode (tailBytes_ne_nil pieces)).2,
    Option.bind_some]

/-- The short escapes of the decoder are those of the grammar. -/
theorem shortEscape_of_escape {letter c : Char} (h : Json.escape [letter] = some (c, [])) :
    letter.toNat < 128 ∧ letter ≠ 'u' ∧
      (shortEscape (UInt8.ofNat letter.toNat)).map (fun byte => [byte]) =
        some (String.utf8EncodeChar c) := by
  unfold Json.escape at h
  split at h
  case h_9 =>
    next text heq =>
    obtain ⟨-, rfl⟩ := List.cons.inj heq
    cases h
  case h_10 => cases h
  all_goals
    next text heq =>
    obtain ⟨rfl, rfl⟩ := List.cons.inj heq
    cases h
    decide +kernel

theorem characterOf_short {letter c : Char} (hescape : Json.escape [letter] = some (c, []))
    (hleft : left ≠ []) :
    characterOf (encode ['\\', letter] ++ left) = some (String.utf8EncodeChar c, left) := by
  obtain ⟨hascii, -, hshort⟩ := shortEscape_of_escape hescape
  obtain ⟨byte, hbyte, hencode⟩ := map_eq_some_iff.mp hshort
  have hbytes : encode ['\\', letter] ++ left = 0x5c :: UInt8.ofNat letter.toNat :: left := by
    rw [encode_cons, encode_cons, encodeChar_of_lt hascii]
    rfl
  rw [hbytes, characterOf, if_neg (by decide), if_neg hleft, hbyte, ← hencode]

/-- A byte that stands for itself. -/
def PlainByte (byte : UInt8) : Prop := byte ≠ 0x5c ∧ ¬ byte < 0x20

theorem plainByte_of_plain {c : Char} (h : Json.plain c = true) :
    ∀ byte ∈ String.utf8EncodeChar c, PlainByte byte := by
  simp only [Json.plain, Bool.and_eq_true, decide_eq_true_eq] at h
  intro byte hbyte
  by_cases hascii : c.toNat < 128
  · rw [encodeChar_of_lt hascii, mem_singleton] at hbyte
    subst hbyte
    have hnat : (UInt8.ofNat c.toNat).toNat = c.toNat :=
      UInt8.toNat_ofNat_of_lt' (hascii.trans (by decide))
    refine ⟨fun heq => h.1.2 (Char.toNat_inj.mp ?_), fun hlt => ?_⟩
    · rw [← hnat, heq]
      rfl
    · rw [UInt8.lt_iff_toNat_lt, hnat] at hlt
      exact absurd h.2 (not_le.mpr hlt)
  · have hlarge := le_of_mem_encodeChar (Nat.le_of_not_lt hascii) hbyte
    refine ⟨fun heq => absurd hlarge (by rw [heq]; decide), fun hlt => ?_⟩
    exact absurd (hlarge.trans_lt hlt) (by decide)

theorem characterOf_plain {byte : UInt8} (h : PlainByte byte) (hleft : left ≠ []) :
    characterOf (byte :: left) = some ([byte], left) := by
  obtain ⟨next, left, rfl⟩ := exists_cons_of_ne_nil hleft
  rw [characterOf, if_pos h.1, if_neg h.2]

theorem length_tailBytes_lt (piece : Json.Piece) (pieces : List Json.Piece) :
    (tailBytes pieces).length < (tailBytes (piece :: pieces)).length := by
  obtain ⟨c, text, htext⟩ : ∃ c text, piece.text = c :: text := by
    cases piece <;> exact ⟨_, _, rfl⟩
  have hpos := Char.utf8Size_pos c
  rw [tailBytes_cons, length_append, htext, encode_cons, length_append,
    String.length_utf8EncodeChar]
  omega

theorem more_tailBytes (piece : Json.Piece) (pieces : List Json.Piece) :
    1 < (tailBytes (piece :: pieces)).length :=
  lt_of_le_of_lt (length_pos_of_ne_nil (tailBytes_ne_nil pieces)) (length_tailBytes_lt piece pieces)

/-- Another piece than a code unit does not start like one. -/
theorem pairOf_lone {pieces : List Json.Piece}
    (h : ∀ digits code hcode rest, pieces = .unit digits code hcode :: rest → False) :
    pairOf first (tailBytes pieces) = none := by
  match pieces with
  | [] => rfl
  | .unescaped c hplain :: rest =>
    rw [tailBytes_cons, Json.Piece.text, encode_cons, encode_nil, append_nil]
    have hpos : 0 < (String.utf8EncodeChar c).length := by
      rw [String.length_utf8EncodeChar]
      exact Char.utf8Size_pos c
    obtain ⟨byte, bytes, hbytes⟩ := exists_cons_of_ne_nil (ne_nil_of_length_pos hpos)
    have hmark := (plainByte_of_plain hplain byte (by rw [hbytes]; exact mem_cons_self)).1
    rw [hbytes]
    unfold pairOf
    split
    · next heq => exact if_neg fun hunit => hmark ((List.cons.inj heq).1.trans hunit.1)
    · rfl
  | .short letter c hescape :: rest =>
    obtain ⟨hascii, hletter, -⟩ := shortEscape_of_escape hescape
    rw [tailBytes_cons, Json.Piece.text, encode_cons, encode_cons, encodeChar_of_lt hascii]
    refine if_neg fun hunit => hletter (Char.toNat_inj.mp ?_)
    have hnat := congrArg UInt8.toNat hunit.2
    rwa [UInt8.toNat_ofNat_of_lt' (hascii.trans (by decide))] at hnat
  | .unit digits code hcode :: rest => exact absurd rfl (h digits code hcode rest)

variable {r : Nat}

theorem isValidChar_of_not_isSurrogate (h : ¬ isSurrogate r) (hbound : r < 0x10000) :
    r.isValidChar := by
  unfold isSurrogate at h
  omega

theorem appendedRune_of_valid (h : r.isValidChar) :
    appendedRune r = String.utf8EncodeChar (Char.ofNat r) := by
  rw [appendedRune, if_pos h]

/-- The rune of a surrogate pair. -/
theorem decodeRune_pair {first second : Nat} (hfirst : 0xd800 ≤ first ∧ first < 0xdc00)
    (hsecond : 0xdc00 ≤ second ∧ second < 0xe000) :
    decodeRune first second = 0x10000 + (first - 0xd800) * 0x400 + (second - 0xdc00) := by
  rw [decodeRune, if_pos ⟨hfirst.1, hfirst.2, hsecond⟩,
    ← shiftLeft_add_eq_or_of_lt (show second - 0xdc00 < 2 ^ 10 by omega), shiftLeft_eq]
  omega

/-- A code unit that is no half of a surrogate pair. -/
theorem characterOf_unpaired (h : ¬ isSurrogate code) (pieces : List Json.Piece) :
    characterOf (tailBytes (.unit digits code hcode :: pieces)) =
      some (String.utf8EncodeChar (Char.ofNat code), tailBytes pieces) := by
  have hbound := (unitOf_encode hcode (tailBytes_ne_nil pieces)).1
  rw [characterOf_unit, if_neg h, appendedRune_of_valid (isValidChar_of_not_isSurrogate h hbound)]

/-! ## The loop on a token -/

/-- The bytes of a text that is still to come, behind the text that was read, if they are
within the limit. -/
def fitting (limit : Int) (read : List Char) (expected : Option (List Char)) : Option Bytes :=
  expected.bind fun text =>
    if ((encode (read ++ text)).length : Int) ≤ limit then some (encode (read ++ text)) else none

/-- The next character fits, or the limit is exceeded now. -/
theorem fitting_cons (read : List Char) (c : Char) (expected : Option (List Char)) :
    fitting limit read (expected.map (c :: ·)) =
      if ((encode (read ++ [c])).length : Int) ≤ limit then fitting limit (read ++ [c]) expected
      else none := by
  cases expected with
  | none => simp [fitting]
  | some text =>
    have happend : read ++ c :: text = (read ++ [c]) ++ text := by simp
    simp only [fitting, map_some, Option.bind_some, happend]
    by_cases hfits : ((encode (read ++ [c])).length : Int) ≤ limit
    · rw [if_pos hfits]
    · rw [if_neg hfits, if_neg]
      rw [encode_append (read ++ [c]), length_append]
      omega

/-- A round that appends bytes. -/
theorem loopOf_succ {rest result appended left : Bytes} (hmore : 1 < rest.length)
    (hchar : characterOf rest = some (appended, left)) (rounds : Nat) :
    loopOf limit (rounds + 1) rest result =
      if ((result ++ appended).length : Int) ≤ limit then
        loopOf limit rounds left (result ++ appended)
      else none := by
  rw [loopOf, if_pos hmore, hchar]
  simp only [Option.bind_some, gt_iff_lt, ← not_le, ite_not]

/-- A round that reads one character. -/
theorem loopOf_character {rest left : Bytes} {read : List Char} {c : Char} {rounds : Nat}
    {expected : Option (List Char)}
    (hchar : characterOf rest = some (String.utf8EncodeChar c, left))
    (hleft : left ≠ []) (hless : left.length < rest.length) (hrounds : rest.length ≤ rounds)
    (hnext : ∀ rounds, left.length ≤ rounds → ((encode (read ++ [c])).length : Int) ≤ limit →
      loopOf limit rounds left (encode (read ++ [c])) = fitting limit (read ++ [c]) expected) :
    loopOf limit rounds rest (encode read) = fitting limit read (expected.map (c :: ·)) := by
  have hpos := length_pos_of_ne_nil hleft
  obtain ⟨rounds, rfl⟩ : ∃ fewer, rounds = fewer + 1 := ⟨rounds - 1, by omega⟩
  have hencode : encode read ++ String.utf8EncodeChar c = encode (read ++ [c]) := by
    rw [encode_append, encode_cons, encode_nil, append_nil]
  rw [loopOf_succ (by omega) hchar, hencode, fitting_cons]
  split
  · next hfits => exact hnext rounds (by omega) hfits
  · rfl

/-- A round that fails. -/
theorem loopOf_error {rest result : Bytes} (hchar : characterOf rest = none)
    (hmore : 1 < rest.length)
    (rounds : Nat) : loopOf limit rounds rest result = none := by
  cases rounds with
  | zero => rfl
  | succ rounds => rw [loopOf, if_pos hmore, hchar, Option.bind_none]

/-- The rounds on bytes that stand for themselves. -/
theorem loopOf_plain {bytes rest : Bytes} (hrest : rest ≠ []) : ∀ {result : Bytes} {rounds : Nat},
    (∀ byte ∈ bytes, PlainByte byte) → (result.length : Int) ≤ limit →
      loopOf limit (rounds + bytes.length) (bytes ++ rest) result =
        if ((result ++ bytes).length : Int) ≤ limit then loopOf limit rounds rest (result ++ bytes)
        else none := by
  induction bytes with
  | nil =>
    intro result rounds _ hfits
    rw [append_nil, if_pos hfits]
    rfl
  | cons byte bytes ih =>
    intro result rounds hplain hfits
    rw [forall_mem_cons] at hplain
    have hpos := length_pos_of_ne_nil hrest
    have hchar := characterOf_plain hplain.1 (append_ne_nil_of_right_ne_nil bytes hrest)
    rw [length_cons, ← add_assoc, cons_append,
      loopOf_succ (by rw [length_cons, length_append]; omega) hchar]
    split
    · next hnext =>
      rw [ih hplain.2 hnext, append_assoc]
      rfl
    · next hnext =>
      rw [if_neg]
      simp only [length_append, length_cons, length_nil] at hnext ⊢
      omega

/-- The loop gives what the rest of a token stands for. -/
theorem loopOf_pieces (pieces : List Json.Piece) {read : List Char} {rounds : Nat}
    (hrounds : (tailBytes pieces).length ≤ rounds)
    (hfits : ((encode read).length : Int) ≤ limit) :
    loopOf limit rounds (tailBytes pieces) (encode read) =
      fitting limit read (Json.denoted pieces) := by
  fun_induction Json.denoted pieces generalizing read rounds with
  | case1 =>
    obtain ⟨rounds, rfl⟩ : ∃ fewer, rounds = fewer + 1 :=
      ⟨rounds - 1, by have : 1 ≤ rounds := hrounds; omega⟩
    rw [loopOf, if_neg (by decide), valid_encode, if_pos rfl, fitting, Option.bind_some, append_nil,
      if_pos hfits]
  | case2 c hplain rest ih =>
    rw [tailBytes_cons, Json.Piece.text, encode_cons, encode_nil, append_nil] at hrounds ⊢
    rw [length_append] at hrounds
    obtain ⟨rounds, rfl⟩ : ∃ fewer, rounds = fewer + (String.utf8EncodeChar c).length :=
      ⟨rounds - (String.utf8EncodeChar c).length, by omega⟩
    have hencode : encode read ++ String.utf8EncodeChar c = encode (read ++ [c]) := by
      rw [encode_append, encode_cons, encode_nil, append_nil]
    rw [loopOf_plain (tailBytes_ne_nil rest) (plainByte_of_plain hplain) hfits, hencode,
      fitting_cons]
    split
    · next hnext => exact ih (by omega) hnext
    · rfl
  | case3 letter c hescape rest ih =>
    refine loopOf_character ?_ (tailBytes_ne_nil rest) (length_tailBytes_lt ..) hrounds
      fun rounds hrounds hnext => ih hrounds hnext
    rw [tailBytes_cons]
    exact characterOf_short hescape (tailBytes_ne_nil rest)
  | case4 digits first hfirst digits' second hsecond rest hsurrogate hpair ih =>
    have hrune := decodeRune_pair ⟨hsurrogate.1, hpair.1⟩ hpair.2
    have hvalid : (decodeRune first second).isValidChar := by omega
    simp only [if_pos hsurrogate, if_pos hpair]
    refine loopOf_character ?_ (tailBytes_ne_nil rest)
      ((length_tailBytes_lt ..).trans (length_tailBytes_lt ..)) hrounds
      fun rounds hrounds hnext => ih hrounds hnext
    rw [characterOf_unit, if_pos (show isSurrogate first from hsurrogate), pairOf_unit,
      if_neg (by rw [runeError]; omega), appendedRune_of_valid hvalid, hrune]
  | case5 digits first hfirst digits' second hsecond rest hsurrogate hpair =>
    have hrune : decodeRune first second = runeError := if_neg fun h => hpair h.2
    simp only [if_pos hsurrogate, if_neg hpair]
    refine loopOf_error ?_ (more_tailBytes ..) rounds
    rw [characterOf_unit, if_pos (show isSurrogate first from hsurrogate),
      pairOf_unit, if_pos hrune]
  | case6 digits first hfirst digits' second hsecond rest hsurrogate ih =>
    simp only [if_neg hsurrogate]
    exact loopOf_character (characterOf_unpaired hsurrogate _) (tailBytes_ne_nil _)
      (length_tailBytes_lt ..) hrounds fun rounds hrounds hnext => ih hrounds hnext
  | case7 digits first hfirst rest hlone hsurrogate =>
    refine loopOf_error ?_ (more_tailBytes ..) rounds
    rw [characterOf_unit, if_pos (show isSurrogate first from hsurrogate), pairOf_lone hlone]
  | case8 digits first hfirst rest hlone hsurrogate ih =>
    exact loopOf_character (characterOf_unpaired hsurrogate _) (tailBytes_ne_nil _)
      (length_tailBytes_lt ..) hrounds fun rounds hrounds hnext => ih hrounds hnext

/-- The decoder gives what a token stands for. -/
theorem decodeJSONString_token (pieces : List Json.Piece) (hlimit : 0 ≤ limit) :
    Gives (decodeJSONString (encode (Json.tokenText pieces)) limit)
      (fitting limit [] (Json.denoted pieces)) := by
  have htoken : encode (Json.tokenText pieces) = [0x22] ++ tailBytes pieces := by
    rw [Json.tokenText, encode_cons, encode_append]
    rfl
  have hlast : byteAt ([0x22] ++ tailBytes pieces) (([0x22] ++ tailBytes pieces).length - 1) =
      .ok 0x22 := by
    have hbyte := byteAt_append ([0x22] ++ encode (pieces.flatMap Json.Piece.text)) [0x22] 0
    rw [append_assoc] at hbyte
    rw [tailBytes, ← append_assoc, length_append, length_singleton,
      Nat.add_sub_cancel, append_assoc]
    exact hbyte
  have hpos := length_pos_of_ne_nil (tailBytes_ne_nil pieces)
  rw [htoken, decodeJSONString, if_neg (by rw [length_append, length_singleton]; omega), hlast]
  rw [if_neg (by rw [length_append, length_singleton]; omega)]
  have hloop := @decodeLoop_gives limit ([0x22] ++ tailBytes pieces).length [0x22]
    (tailBytes pieces) [] (tailBytes_ne_nil pieces) (by rw [length_append]; omega)
  have hpieces := @loopOf_pieces limit pieces [] ([0x22] ++ tailBytes pieces).length
    (by rw [length_append]; omega) hlimit
  rw [encode_nil] at hpieces
  rwa [hpieces] at hloop

/-- Writing a value and reading it back gives the value.  A token is read as the bytes of
the text that it stands for, or refused if it stands for none.  No byte string makes the
decoder read outside of it. -/
theorem decodeJSONString_faithful :
    (∀ value old : Bytes, Utf8.valid value = true → value.length ≤ maxValueBytes →
      ∃ data, marshalJSON value = .ok data ∧ unmarshalJSON (some old) data = .ok value) ∧
    (∀ (pieces : List Json.Piece) (text : List Char) (limit : Int),
      Json.denoted pieces = some text → (Utf8.encode text).length ≤ limit →
      decodeJSONString (Utf8.encode (Json.tokenText pieces)) limit = .ok (Utf8.encode text)) ∧
    (∀ (pieces : List Json.Piece) (limit : Int), Json.denoted pieces = none → 0 ≤ limit →
      ∃ err, decodeJSONString (Utf8.encode (Json.tokenText pieces)) limit = .error err) ∧
    ∀ (data : Bytes) (limit : Int), (0 ≤ limit → (decodeJSONString data limit).Returns) ∧
      ∀ reason, decodeJSONString data limit = .panics reason → reason = capOutOfRange := by
  have htoken : ∀ (pieces : List Json.Piece) (text : List Char) (limit : Int),
      Json.denoted pieces = some text → (Utf8.encode text).length ≤ limit →
      decodeJSONString (Utf8.encode (Json.tokenText pieces)) limit = .ok (Utf8.encode text) := by
    intro pieces text limit htext hfits
    have hgives := @decodeJSONString_token limit pieces (by omega)
    rwa [htext, fitting, Option.bind_some, nil_append, if_pos hfits] at hgives
  refine ⟨fun value old hvalid hlength => ?_, htoken, fun pieces limit hnone hlimit => ?_,
    decodeJSONString_returns⟩
  · have hreads : Json.string (valueText value) = some (Utf8.text value, []) := by
      simpa [valueText] using escapes_escapedChar.reads_string (Utf8.text value) []
    obtain ⟨pieces, htext, hpieces⟩ := Json.string_eq_some hreads
    refine ⟨Utf8.encode (Json.tokenText pieces), ?_, ?_⟩
    · rw [marshalJSON, if_neg (by simp [hvalid]; omega), appendQuotedBytes_eq hvalid, htext]
      rfl
    · have hread := htoken pieces (Utf8.text value) maxValueBytes hpieces
        (by rw [Utf8.encode_text hvalid]; exact_mod_cast hlength)
      rwa [Utf8.encode_text hvalid] at hread
  · have hgives := @decodeJSONString_token limit pieces hlimit
    rwa [hnone] at hgives

/-- The two halves of U+1F511, in this order. -/
def keyPieces : List Json.Piece :=
  [.unit ['d', '8', '3', 'd'] 0xd83d (by decide), .unit ['d', 'd', '1', '1'] 0xdd11 (by decide)]

theorem decodeJSONString_faithful_key : (∃ data, marshalJSON (bytes "a\n\"") = .ok data ∧
      unmarshalJSON (some []) data = .ok (bytes "a\n\"")) ∧
    decodeJSONString (Utf8.encode (Json.tokenText keyPieces)) 4 = .ok [0xf0, 0x9f, 0x94, 0x91] ∧
    (∃ err, decodeJSONString (Utf8.encode (Json.tokenText keyPieces.reverse)) 4 = .error err) := by
  obtain ⟨hround, htoken, hrejects, -⟩ := decodeJSONString_faithful
  have hvalid : Utf8.valid (bytes "a\n\"") = true := Utf8.valid_encode _
  refine ⟨hround _ [] hvalid (by decide), ?_, hrejects _ 4 (by decide) (by decide)⟩
  exact htoken keyPieces [Char.ofNat 0x1f511] 4 (by decide) (by decide)

end Atum.Secretvalue
