import Mathlib.Data.List.Basic

/-!
# Byte strings and the text in them

A byte string is looked at as a sequence of runes: a well-formed character, or a
byte that starts none.  A byte string without such a byte is valid, and it is then
the encoding of exactly one text.  The encoding of one character and its inverse are
those of the core library.
-/

namespace Utf8

open List

/-- The bytes of a text. -/
def encode (chars : List Char) : List UInt8 := chars.flatMap String.utf8EncodeChar

@[simp] theorem encode_nil : encode [] = [] := rfl

@[simp] theorem encode_cons (c : Char) (chars : List Char) :
    encode (c :: chars) = String.utf8EncodeChar c ++ encode chars := rfl

@[simp] theorem encode_append (chars others : List Char) :
    encode (chars ++ others) = encode chars ++ encode others :=
  flatMap_append

theorem encode_flatMap {α : Type} (items : List α) (f : α → List Char) :
    encode (items.flatMap f) = items.flatMap fun item => encode (f item) :=
  flatMap_assoc

/-! ## Single characters -/

variable {c : Char}

/-- A character below 128 is its own byte. -/
theorem encodeChar_of_lt (h : c.toNat < 128) : String.utf8EncodeChar c = [UInt8.ofNat c.toNat] := by
  have hsize : c.utf8Size = 1 := Char.utf8Size_eq_one_iff.mpr (Nat.le_of_lt_succ h)
  rw [String.utf8EncodeChar_eq_singleton hsize]
  rfl

/-- All bytes of another character are at least 128. -/
theorem le_of_mem_encodeChar (h : 128 ≤ c.toNat) {b : UInt8}
    (hb : b ∈ String.utf8EncodeChar c) : 128 ≤ b.toNat := by
  have hlong : ¬c.val.toNat ≤ 0x7f := Nat.not_le.mpr h
  -- Every byte is a remainder of at most 64 on top of one of the four marks.
  unfold String.utf8EncodeChar at hb
  rw [if_neg hlong] at hb
  split at hb
  · simp only [mem_cons, not_mem_nil, or_false] at hb
    rcases hb with rfl | rfl <;> simp only [UInt8.toNat_ofNat'] <;> omega
  split at hb
  · simp only [mem_cons, not_mem_nil, or_false] at hb
    rcases hb with rfl | rfl | rfl <;> simp only [UInt8.toNat_ofNat'] <;> omega
  · simp only [mem_cons, not_mem_nil, or_false] at hb
    rcases hb with rfl | rfl | rfl | rfl <;> simp only [UInt8.toNat_ofNat'] <;> omega

/-- The character that a byte string starts with. -/
def decodeRune (bytes : List UInt8) : Option Char := bytes.toByteArray.utf8DecodeChar? 0

theorem decodeRune_encode (c : Char) (rest : List UInt8) :
    decodeRune (String.utf8EncodeChar c ++ rest) = some c := by
  rw [decodeRune, toByteArray_append]
  exact ByteArray.utf8DecodeChar?_utf8EncodeChar_append

variable {bytes : List UInt8}

theorem eq_of_decodeRune (h : decodeRune bytes = some c) :
    bytes = String.utf8EncodeChar c ++ bytes.drop c.utf8Size := by
  obtain ⟨rest, hrest⟩ := ByteArray.exists_of_utf8DecodeChar?_eq_some h
  have hbytes : bytes = String.utf8EncodeChar c ++ rest.data.toList := by
    have hdata := congrArg (fun b => b.data.toList) hrest
    simpa using hdata
  rw [← String.length_utf8EncodeChar c, hbytes, drop_left]

/-! ## Runes -/

inductive Rune where
  | char (c : Char)
  | invalid (b : UInt8)
  deriving DecidableEq, Repr

def Rune.char? : Rune → Option Char
  | .char c => some c
  | .invalid _ => none

/-- At most `count` runes from the front. -/
def runesUpTo : Nat → List UInt8 → List Rune
  | 0, _ => []
  | _ + 1, [] => []
  | count + 1, b :: rest =>
    match decodeRune (b :: rest) with
    | some c => .char c :: runesUpTo count ((b :: rest).drop c.utf8Size)
    | none => .invalid b :: runesUpTo count rest

/-- All runes of a byte string. -/
def runes (bytes : List UInt8) : List Rune := runesUpTo bytes.length bytes

/-- No byte of the string is outside of a character. -/
def valid (bytes : List UInt8) : Bool := (runes bytes).all fun rune => rune.char?.isSome

/-- The characters of a byte string. -/
def text (bytes : List UInt8) : List Char := (runes bytes).filterMap Rune.char?

variable {count : Nat}

theorem runesUpTo_encode {chars : List Char} (h : (encode chars).length ≤ count) :
    runesUpTo count (encode chars) = chars.map .char := by
  induction chars generalizing count with
  | nil => cases count <;> rfl
  | cons c rest ih =>
    have hsize := String.length_utf8EncodeChar c
    have hpos := Char.utf8Size_pos c
    have hdrop : (encode (c :: rest)).drop c.utf8Size = encode rest := by
      rw [encode_cons, ← hsize, drop_left]
    have hrune : decodeRune (encode (c :: rest)) = some c := decodeRune_encode c (encode rest)
    have hlen : (encode (c :: rest)).length = c.utf8Size + (encode rest).length := by
      rw [encode_cons, length_append, hsize]
    cases count with
    | zero => omega
    | succ count =>
      cases hbytes : encode (c :: rest) with
      | nil => simp [hbytes] at hlen; omega
      | cons b others =>
        rw [hbytes] at hrune hdrop
        rw [runesUpTo, hrune]
        dsimp only
        rw [hdrop, ih (by omega), map_cons]

theorem runes_encode (chars : List Char) : runes (encode chars) = chars.map .char :=
  runesUpTo_encode (Nat.le_refl _)

@[simp] theorem text_encode (chars : List Char) : text (encode chars) = chars := by
  rw [text, runes_encode, filterMap_map]
  exact filterMap_some

@[simp] theorem valid_encode (chars : List Char) : valid (encode chars) = true := by
  simp [valid, runes_encode, Rune.char?]

theorem encode_filterMap_runesUpTo (hcount : bytes.length ≤ count)
    (h : ∀ rune ∈ runesUpTo count bytes, rune.char?.isSome = true) :
    encode ((runesUpTo count bytes).filterMap Rune.char?) = bytes := by
  induction count generalizing bytes with
  | zero => rw [eq_nil_of_length_eq_zero (Nat.le_zero.mp hcount)]; rfl
  | succ count ih =>
    cases bytes with
    | nil => rfl
    | cons b rest =>
      rw [runesUpTo] at h ⊢
      cases hrune : decodeRune (b :: rest) with
      | none =>
        rw [hrune] at h
        exact absurd (h _ mem_cons_self) (by simp [Rune.char?])
      | some c =>
        rw [hrune] at h
        have hpos := Char.utf8Size_pos c
        have hshort : ((b :: rest).drop c.utf8Size).length ≤ count := by
          rw [length_drop]
          omega
        have hrest := ih hshort fun rune hmem => h rune (mem_cons_of_mem _ hmem)
        have hchar : (Rune.char c).char? = some c := rfl
        rw [filterMap_cons_some hchar, encode_cons, hrest]
        exact (eq_of_decodeRune hrune).symm

/-- A valid byte string is the encoding of its text. -/
theorem encode_text (h : valid bytes = true) : encode (text bytes) = bytes :=
  encode_filterMap_runesUpTo (Nat.le_refl _) (all_eq_true.mp h)

end Utf8
