import Mathlib.Data.List.Nodup
import Atum.Secrets.SigningKey

/-!
# The base64 of bcrypt

`bcryptBase64` writes the salt and the hash of a bcrypt value.  It takes three bytes
to four characters of its own alphabet, and one or two bytes that are left over to
two or three characters.

An access outside of the alphabet would be a panic, which is `none` here.  There is
none, and the characters of a byte string of known length determine it
(`bcryptBase64_faithful`).
-/

namespace Atum.Secrets

open List

/-! ## The model -/

def bcryptAlphabet : List Char :=
  "./ABCDEFGHIJKLMNOPQRSTUVWXYZabcdefghijklmnopqrstuvwxyz0123456789".toList

/-- The places of the alphabet that the loop of `bcryptBase64` reads.  It ends after
three bytes when there are no more of them, or after the first or the second one. -/
def alphabetPlaces : Bytes → Bytes
  | [] => []
  | [first] => [first >>> 2, (first &&& 0x03) <<< 4]
  | [first, second] =>
    [first >>> 2, (first &&& 0x03) <<< 4 ||| second >>> 4, (second &&& 0x0f) <<< 2]
  | first :: second :: third :: rest =>
    first >>> 2 :: ((first &&& 0x03) <<< 4 ||| second >>> 4) ::
      ((second &&& 0x0f) <<< 2 ||| third >>> 6) :: (third &&& 0x3f) :: alphabetPlaces rest

/-- `bcryptBase64`. -/
def bcryptBase64 (source : Bytes) : Option (List Char) :=
  (alphabetPlaces source).mapM fun place => bcryptAlphabet[place.toNat]?

/-! ## The places -/

/-- What the loop takes from one byte, as numbers. -/
theorem toNat_parts : ∀ n : Fin 256, (UInt8.ofNat n >>> 2).toNat = n / 4 ∧
    (UInt8.ofNat n >>> 4).toNat = n / 16 ∧ (UInt8.ofNat n >>> 6).toNat = n / 64 ∧
    (UInt8.ofNat n &&& 0x3f).toNat = n % 64 ∧
    ((UInt8.ofNat n &&& 0x03) <<< 4).toNat = 2 ^ 4 * (n % 4) ∧
    ((UInt8.ofNat n &&& 0x0f) <<< 2).toNat = 2 ^ 2 * (n % 16) := by
  decide +kernel

/-- The places as numbers, and the bounds of the bytes. -/
theorem toNat_places (first second third : UInt8) :
    (first.toNat < 256 ∧ second.toNat < 256 ∧ third.toNat < 256) ∧
      (first >>> 2).toNat = first.toNat / 4 ∧
      ((first &&& 0x03) <<< 4).toNat = 2 ^ 4 * (first.toNat % 4) ∧
      ((first &&& 0x03) <<< 4 ||| second >>> 4).toNat =
        2 ^ 4 * (first.toNat % 4) + second.toNat / 16 ∧
      ((second &&& 0x0f) <<< 2).toNat = 2 ^ 2 * (second.toNat % 16) ∧
      ((second &&& 0x0f) <<< 2 ||| third >>> 6).toNat =
        2 ^ 2 * (second.toNat % 16) + third.toNat / 64 ∧
      (third &&& 0x3f).toNat = third.toNat % 64 := by
  have hlt := second.toNat_lt
  have hlt' := third.toNat_lt
  have hfirst := toNat_parts ⟨first.toNat, first.toNat_lt⟩
  have hsecond := toNat_parts ⟨second.toNat, hlt⟩
  have hthird := toNat_parts ⟨third.toNat, hlt'⟩
  simp only [UInt8.ofNat_toNat] at hfirst hsecond hthird
  obtain ⟨hhigh, -, -, -, hcarry, -⟩ := hfirst
  obtain ⟨-, hsecond, -, -, -, hcarry'⟩ := hsecond
  -- The bits of the next byte fill the places that the shift left free.
  have hjoined := Nat.two_pow_add_eq_or_of_lt (show second.toNat / 16 < 2 ^ 4 by omega)
  have hjoined' := Nat.two_pow_add_eq_or_of_lt (show third.toNat / 64 < 2 ^ 2 by omega)
  rw [UInt8.toNat_or, UInt8.toNat_or, hcarry, hsecond, hcarry', hthird.2.2.1, ← hjoined, ← hjoined']
  exact ⟨⟨first.toNat_lt, hlt, hlt'⟩, hhigh, rfl, rfl, rfl, rfl, hthird.2.2.2.1⟩

/-- Three bytes give four places, and what is left over one more than its bytes. -/
theorem alphabetPlaces_shape (source : Bytes) :
    (alphabetPlaces source).length = (4 * source.length + 2) / 3 ∧
      ∀ place ∈ alphabetPlaces source, place.toNat < 64 := by
  induction source using alphabetPlaces.induct with
  | case1 => simp [alphabetPlaces]
  | case2 first =>
    have hplaces := toNat_places first 0 0
    simp only [alphabetPlaces, mem_cons, not_mem_nil, or_false, forall_eq_or_imp, forall_eq]
    exact ⟨by simp, by omega, by omega⟩
  | case3 first second =>
    have hplaces := toNat_places first second 0
    simp only [alphabetPlaces, mem_cons, not_mem_nil, or_false, forall_eq_or_imp, forall_eq]
    exact ⟨by simp, by omega, by omega, by omega⟩
  | case4 first second third rest ih =>
    have hplaces := toNat_places first second third
    simp only [alphabetPlaces, mem_cons, forall_eq_or_imp]
    refine ⟨?_, by omega, by omega, by omega, by omega, ih.2⟩
    simp only [length_cons, ih.1]
    omega

/-- The bits of the bytes are all there. -/
theorem alphabetPlaces_injective (source : Bytes) : ∀ {other : Bytes},
    other.length = source.length → alphabetPlaces other = alphabetPlaces source →
      other = source := by
  induction source using alphabetPlaces.induct with
  | case1 =>
    intro other hlen _
    exact length_eq_zero_iff.mp hlen
  | case2 first =>
    intro other hlen h
    obtain ⟨first', rfl⟩ := length_eq_one_iff.mp hlen
    have hplaces := toNat_places first 0 0
    have hplaces' := toNat_places first' 0 0
    simp only [alphabetPlaces, cons.injEq, ← UInt8.toNat_inj, and_true] at h ⊢
    omega
  | case3 first second =>
    intro other hlen h
    obtain ⟨first', second', rfl⟩ := length_eq_two.mp hlen
    have hplaces := toNat_places first second 0
    have hplaces' := toNat_places first' second' 0
    simp only [alphabetPlaces, cons.injEq, ← UInt8.toNat_inj, and_true] at h ⊢
    omega
  | case4 first second third rest ih =>
    intro other hlen h
    match other, hlen with
    | first' :: second' :: third' :: rest', hlen =>
      have hplaces := toNat_places first second third
      have hplaces' := toNat_places first' second' third'
      simp only [alphabetPlaces, cons.injEq, ← UInt8.toNat_inj] at h ⊢
      exact ⟨by omega, by omega, by omega, ih (by simpa using hlen) h.2.2.2.2⟩

/-! ## The characters -/

variable {f : UInt8 → Option Char} {places : Bytes} {encoded : List Char}

theorem mapM_cons_eq_some {place : UInt8} :
    (place :: places).mapM f = some encoded ↔
      ∃ c rest, f place = some c ∧ places.mapM f = some rest ∧ encoded = c :: rest := by
  simp only [mapM_cons, Option.bind_eq_bind, Option.bind_eq_some_iff, Option.pure_def,
    Option.some.injEq]
  grind

/-- Characters that come from one place only determine their places. -/
theorem eq_of_mapM (hf : ∀ {place other c}, f place = some c → f other = some c → other = place) :
    ∀ {places others : Bytes} {encoded : List Char},
      places.mapM f = some encoded → others.mapM f = some encoded → others = places := by
  intro places
  induction places with
  | nil =>
    intro others encoded h hothers
    cases h
    cases others with
    | nil => rfl
    | cons other others =>
      obtain ⟨c, rest, -, -, heq⟩ := mapM_cons_eq_some.mp hothers
      cases heq
  | cons place places ih =>
    intro others encoded h hothers
    obtain ⟨c, rest, hc, hrest, rfl⟩ := mapM_cons_eq_some.mp h
    cases others with
    | nil => cases hothers
    | cons other others =>
      obtain ⟨c', rest', hc', hrest', heq⟩ := mapM_cons_eq_some.mp hothers
      cases heq
      rw [hf hc hc', ih hrest hrest']

/-- Places of the alphabet are read without a panic. -/
theorem exists_mapM_alphabet (hplaces : ∀ place ∈ places, place.toNat < 64) :
    ∃ encoded, (places.mapM fun place => bcryptAlphabet[place.toNat]?) = some encoded ∧
      encoded.length = places.length ∧ ∀ c ∈ encoded, c ∈ bcryptAlphabet := by
  induction places with
  | nil => exact ⟨[], rfl, rfl, by simp⟩
  | cons place places ih =>
    obtain ⟨rest, hrest, hlen, hmem⟩ := ih fun other hother =>
      hplaces other (mem_cons_of_mem _ hother)
    have hplace : place.toNat < bcryptAlphabet.length := hplaces place mem_cons_self
    refine ⟨bcryptAlphabet[place.toNat] :: rest,
      mapM_cons_eq_some.mpr ⟨_, _, getElem?_eq_getElem hplace, hrest, rfl⟩, by simp [hlen], ?_⟩
    exact forall_mem_cons.mpr ⟨getElem_mem hplace, hmem⟩

/-- Every byte string has an encoding of `⌈4n/3⌉` characters of the alphabet, and no
other byte string of its length has the same one. -/
theorem bcryptBase64_faithful (source : Bytes) :
    ∃ encoded, bcryptBase64 source = some encoded ∧
      encoded.length = (4 * source.length + 2) / 3 ∧ (∀ c ∈ encoded, c ∈ bcryptAlphabet) ∧
      ∀ other, other.length = source.length → bcryptBase64 other = some encoded →
        other = source := by
  obtain ⟨hlen, hplaces⟩ := alphabetPlaces_shape source
  obtain ⟨encoded, hencoded, hsize, hmem⟩ := exists_mapM_alphabet hplaces
  refine ⟨encoded, hencoded, hsize.trans hlen, hmem, fun other hother h => ?_⟩
  refine alphabetPlaces_injective source hother (eq_of_mapM ?_ hencoded h)
  intro place other c hplace hother
  obtain ⟨hbound, -⟩ := List.getElem?_eq_some_iff.mp hother
  have hnodup : bcryptAlphabet.Nodup := by decide
  exact UInt8.toNat_inj.mp ((getElem?_inj hbound hnodup).mp (hother.trans hplace.symm))

end Atum.Secrets
