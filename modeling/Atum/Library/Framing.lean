import Mathlib.Data.List.Basic

/-!
# Self-delimiting encodings

An encoding is self-delimiting if the end of an encoded value can be found in every
longer word.  A field with a terminator is, a header before a body whose length it
tells is, and so are pairs of such encodings.  A concatenation of encoded values then
has one reading (`SelfDelimiting.flatMap_injective`).
-/

namespace Framing

open List

variable {α β γ : Type}

/-- What follows the first occurrence of a symbol is determined. -/
theorem append_cons_inj {left right rest rest' : List β} {stop : β} (hleft : stop ∉ left)
    (hright : stop ∉ right) (h : left ++ stop :: rest = right ++ stop :: rest') :
    left = right ∧ rest = rest' := by
  induction left generalizing right with
  | nil =>
    cases right with
    | nil => exact ⟨rfl, (List.cons.inj h).2⟩
    | cons d right =>
      obtain rfl : stop = d := (List.cons.inj h).1
      exact absurd mem_cons_self hright
  | cons d left ih =>
    cases right with
    | nil =>
      obtain rfl : d = stop := (List.cons.inj h).1
      exact absurd mem_cons_self hleft
    | cons e right =>
      obtain ⟨rfl, htail⟩ := List.cons.inj h
      obtain ⟨rfl, hrest⟩ := ih (fun hmem => hleft (mem_cons_of_mem _ hmem))
        (fun hmem => hright (mem_cons_of_mem _ hmem)) htail
      exact ⟨rfl, hrest⟩

/-- The valid values of a type, encoded such that a longer word tells the value and its
end. -/
def SelfDelimiting (valid : α → Prop) (encode : α → List β) : Prop :=
  ∀ ⦃a b : α⦄ ⦃s t : List β⦄, valid a → valid b → encode a ++ s = encode b ++ t → a = b ∧ s = t

/-- A field without the terminator in it. -/
theorem selfDelimiting_terminated (stop : β) :
    SelfDelimiting (fun field : List β => stop ∉ field) fun field => field ++ [stop] := by
  intro a b s t ha hb h
  rw [append_assoc, append_assoc] at h
  exact append_cons_inj ha hb h

variable {encode : α → List β} {valid : α → Prop}

/-- A value that is encoded through another one. -/
theorem SelfDelimiting.comap
    (hencode : SelfDelimiting valid encode) {f : γ → α} (hf : Function.Injective f) :
    SelfDelimiting (fun c => valid (f c)) fun c => encode (f c) := by
  intro a b s t ha hb h
  obtain ⟨hval, hrest⟩ := hencode ha hb h
  exact ⟨hf hval, hrest⟩

/-- One value after the other. -/
theorem SelfDelimiting.prod {valid' : γ → Prop}
    {encode' : γ → List β} (hencode : SelfDelimiting valid encode)
    (hencode' : SelfDelimiting valid' encode') :
    SelfDelimiting (fun pair : α × γ => valid pair.1 ∧ valid' pair.2)
      fun pair => encode pair.1 ++ encode' pair.2 := by
  intro a b s t ha hb h
  rw [append_assoc, append_assoc] at h
  obtain ⟨hfirst, hrest⟩ := hencode ha.1 hb.1 h
  obtain ⟨hsecond, hrest⟩ := hencode' ha.2 hb.2 hrest
  exact ⟨Prod.ext hfirst hsecond, hrest⟩

/-- A header that tells the length of the body behind it. -/
theorem SelfDelimiting.sized
    (hencode : SelfDelimiting valid encode) (header : γ → α) (body : γ → List β)
    (hlen : ∀ a b, header a = header b → (body a).length = (body b).length)
    (hinj : ∀ a b, header a = header b → body a = body b → a = b) :
    SelfDelimiting (fun c => valid (header c)) fun c => encode (header c) ++ body c := by
  intro a b s t ha hb h
  rw [append_assoc, append_assoc] at h
  obtain ⟨hheader, hrest⟩ := hencode ha hb h
  obtain ⟨hbody, hrest⟩ := append_inj hrest (hlen a b hheader)
  exact ⟨hinj a b hheader hbody, hrest⟩

/-- A concatenation of encoded values has one reading. -/
theorem SelfDelimiting.flatMap_injective
    (hencode : SelfDelimiting valid encode) (hne : ∀ a, encode a ≠ []) {items : List α} :
    ∀ {items' : List α}, (∀ a ∈ items, valid a) → (∀ a ∈ items', valid a) →
      items.flatMap encode = items'.flatMap encode → items = items' := by
  induction items with
  | nil =>
    intro items' _ _ h
    cases items' with
    | nil => rfl
    | cons b rest' => exact absurd (append_eq_nil_iff.mp h.symm).1 (hne b)
  | cons a rest ih =>
    intro items' hvalid hvalid' h
    cases items' with
    | nil => exact absurd (append_eq_nil_iff.mp h).1 (hne a)
    | cons b rest' =>
      rw [forall_mem_cons] at hvalid hvalid'
      obtain ⟨rfl, hrest⟩ := hencode hvalid.1 hvalid'.1 h
      rw [ih hvalid.2 hvalid'.2 hrest]

end Framing
