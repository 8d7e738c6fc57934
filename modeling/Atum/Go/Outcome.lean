/-!
# The outcome of a Go call

A Go function with an error result returns a value or an error.  Two more
things can happen to a caller: the callee panics, or it never returns.  The
models use `Outcome` where one of these two matters, and `Except String` where
neither can occur.
-/

namespace Atum.Go

open List

inductive Outcome (α : Type) where
  | ok (value : α)
  | error (message : String)
  | panics (reason : String)
  | diverges
  deriving DecidableEq, Repr

namespace Outcome

variable {α β : Type}

def bind (x : Outcome α) (f : α → Outcome β) : Outcome β :=
  match x with
  | ok value => f value
  | error message => error message
  | panics reason => panics reason
  | diverges => diverges

instance : Monad Outcome where
  pure := ok
  bind := bind

/-- A call that neither panics nor runs forever. -/
def ofExcept : Except String α → Outcome α
  | .ok value => ok value
  | .error message => error message

theorem ok_bind (a : α) (f : α → Outcome β) : (ok a >>= f) = f a := rfl

/-- A sequence returns a value exactly when its first part does and its second
part does on that value. -/
theorem bind_eq_ok {x : Outcome α} {f : α → Outcome β} {b : β} :
    (x >>= f) = ok b ↔ ∃ a, x = ok a ∧ f a = ok b := by
  cases x <;> simp [Bind.bind, bind]

@[simp] theorem ofExcept_eq_ok {x : Except String α} {a : α} : ofExcept x = ok a ↔ x = .ok a := by
  cases x <;> simp [ofExcept]

/-- The call comes back with a value or an error. -/
def Returns : Outcome α → Prop
  | ok _ => True
  | error _ => True
  | panics _ => False
  | diverges => False

end Outcome

/-! ## Functions with an error result -/

section Errors

variable {ε α β : Type} {f : α → Except ε β} {x : Except ε α} {b : β}

/-- A sequence returns a value exactly when both parts do. -/
theorem bind_eq_ok : (x >>= f) = .ok b ↔ ∃ a, x = .ok a ∧ f a = .ok b := by
  cases x <;> simp [bind, Except.bind]

/-- Two results that agree after a map are the same error, or two values that agree. -/
theorem map_eq_map {f : α → β} {γ : Type} {g : γ → β} {y : Except ε γ} (h : x.map f = y.map g) :
    (∃ err, x = .error err ∧ y = .error err) ∨ ∃ a b, x = .ok a ∧ y = .ok b ∧ f a = g b := by
  cases x with
  | error err =>
    cases y with
    | error err' => exact .inl ⟨err, rfl, congrArg Except.error (Except.error.inj h).symm⟩
    | ok b => cases h
  | ok a =>
    cases y with
    | error err' => cases h
    | ok b => exact .inr ⟨a, b, rfl, rfl, Except.ok.inj h⟩

variable {e : ε} {a : α}

/-- A check that throws is passed by what goes on. -/
theorem ite_throw_eq_ok {c : Prop} [Decidable c] :
    (if c then throw e else x) = .ok a ↔ ¬c ∧ x = .ok a := by
  by_cases hc : c
  · simp [hc, throw, throwThe, MonadExceptOf.throw]
  · simp [hc]

theorem ite_throw_bind_eq_ok {c : Prop} [Decidable c] {f : β → Except ε α} :
    (if c then throw e >>= f else x) = .ok a ↔ ¬c ∧ x = .ok a := by
  by_cases hc : c
  · simp [hc, throw, throwThe, MonadExceptOf.throw, bind, Except.bind]
  · simp [hc]

/-- A loop returns exactly when every round does. -/
theorem forM_eq_ok_iff {f : α → Except ε Unit} (items : List α) :
    items.forM f = .ok () ↔ ∀ item ∈ items, f item = .ok () := by
  induction items with
  | nil => simp [List.forM, pure, Except.pure]
  | cons item rest ih =>
    have hstep : (item :: rest).forM f = (f item >>= fun _ => rest.forM f) := rfl
    rw [hstep, bind_eq_ok, forall_mem_cons, ← ih]
    exact ⟨fun ⟨_, hitem, hrest⟩ => ⟨hitem, hrest⟩, fun ⟨hitem, hrest⟩ => ⟨(), hitem, hrest⟩⟩

variable {items : List α} {results : List β}

/-- A loop returns the results of its rounds. -/
theorem mapM_eq_ok : items.mapM f = .ok results ↔ items.map f = results.map .ok := by
  induction items generalizing results with
  | nil => cases results <;> simp [pure, Except.pure]
  | cons item rest ih =>
    simp only [mapM_cons, bind_eq_ok, ih]
    cases results with
    | nil => simp [pure, Except.pure]
    | cons first others =>
      simp only [pure, Except.pure, Except.ok.injEq, map_cons, List.cons.injEq]
      constructor
      · rintro ⟨_, hfirst, _, hothers, rfl, rfl⟩
        exact ⟨hfirst, hothers⟩
      · rintro ⟨hfirst, hothers⟩
        exact ⟨first, hfirst, others, hothers, rfl, rfl⟩

theorem mapM_ok
    (h : items.mapM f = .ok results) : (∀ result ∈ results, ∃ item ∈ items, f item = .ok result) ∧
      ∀ item ∈ items, ∃ result ∈ results, f item = .ok result := by
  rw [mapM_eq_ok] at h
  constructor
  · exact fun result hres => mem_map.mp (h ▸ mem_map_of_mem hres)
  · intro item hitem
    obtain ⟨result, hres, heq⟩ := mem_map.mp (h ▸ mem_map_of_mem hitem)
    exact ⟨result, hres, heq.symm⟩

variable {P : β → Prop} {b' : β}

/-- What no round of a loop makes false holds at the end. -/
theorem foldlM_keep {f : β → α → Except ε β}
    (hkeep : ∀ b a b', f b a = .ok b' → P b → P b') (hstart : P b)
    (h : items.foldlM f b = .ok b') : P b' := by
  induction items generalizing b with
  | nil => exact Except.ok.inj h ▸ hstart
  | cons a rest ih =>
    rw [foldlM_cons, bind_eq_ok] at h
    obtain ⟨next, hnext, h⟩ := h
    exact ih (hkeep b a next hnext hstart) h

/-- What one round of a loop makes true and no round makes false holds at the end. -/
theorem foldlM_of_mem {f : β → α → Except ε β} {item : α}
    (hround : ∀ b b', f b item = .ok b' → P b') (hkeep : ∀ b a b', f b a = .ok b' → P b → P b')
    (hmem : item ∈ items) (h : items.foldlM f b = .ok b') : P b' := by
  induction items generalizing b with
  | nil => cases hmem
  | cons a rest ih =>
    rw [foldlM_cons, bind_eq_ok] at h
    obtain ⟨next, hnext, h⟩ := h
    rcases mem_cons.mp hmem with rfl | hmem
    · exact foldlM_keep hkeep (hround b next hnext) h
    · exact ih hmem h

end Errors

end Atum.Go
