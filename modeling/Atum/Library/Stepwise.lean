import Mathlib.Data.List.Basic

/-!
# Programs that may be stopped between two operations

A program works on a state through single operations.  It is a function that
gives, besides its result, the state after each of its operations in order.  A
run that is stopped leaves the state after the operations it came to, so a
statement for all stopping points is a statement about this list.

`Moves` is the rule for invariants: a reflexive and transitive relation that
every operation keeps holds between the start of a program and every state in
which it can be stopped.
-/

namespace Stepwise

open List

variable {σ α β ι : Type}

/-- A program: how it ends, and the state after each of its operations. -/
def Prog (σ α : Type) : Type := σ → Except String α × List σ

/-- The state after operations that began in `s`. -/
def final (s : σ) (states : List σ) : σ := states.getLastD s

@[simp] theorem final_nil (s : σ) : final s [] = s := rfl

@[simp] theorem final_cons (s t : σ) (states : List σ) :
    final s (t :: states) = final t states := by
  cases states <;> rfl

theorem final_append (s : σ) (first second : List σ) :
    final s (first ++ second) = final (final s first) second := by
  induction first generalizing s with
  | nil => rfl
  | cons t first ih => simp only [cons_append, final_cons, ih]

theorem final_mem (s : σ) (states : List σ) : final s states ∈ s :: states := by
  induction states generalizing s with
  | nil => simp
  | cons t states ih =>
    rw [final_cons]
    exact mem_cons_of_mem _ (ih t)

/-- Stopping a sequence stops its first part, and its second part with what is
left of the budget. -/
theorem final_take_append (s : σ) (count : Nat) (first second : List σ) :
    final s ((first ++ second).take count) =
      final (final s (first.take count)) (second.take (count - first.length)) := by
  rw [take_append, final_append]

namespace Prog

instance : Monad (Prog σ) where
  pure a := fun _ => (.ok a, [])
  bind x f := fun s =>
    match x s with
    | (.ok a, states) =>
      let rest := f a (final s states)
      (rest.1, states ++ rest.2)
    | (.error e, states) => (.error e, states)

/-- Look at the state without an operation. -/
def inspect (look : σ → Except String α) : Prog σ α := fun s => (look s, [])

/-- A result that does not depend on the state. -/
def given (result : Except String α) : Prog σ α := inspect fun _ => result

/-- Go on only if a check passes. -/
def check (passed : Bool) (message : String) : Prog σ Unit :=
  given (if passed then .ok () else .error message)

/-- An operation that reports on the state. -/
def observe (look : σ → α) : Prog σ α := fun s => (.ok (look s), [s])

/-- An operation that changes the state. -/
def operate (change : σ → σ) : Prog σ Unit := fun s => (.ok (), [change s])

/-- One program for each item of a list, in order. -/
def all (body : ι → Prog σ Unit) : List ι → Prog σ Unit
  | [] => pure ()
  | item :: rest => do
      body item
      all body rest

/-- The state in which a run ends. -/
def after (x : Prog σ α) (s : σ) : σ := final s (x s).2

/-- The state that a run leaves when it is stopped after `count` operations. -/
def stopped (count : Nat) (x : Prog σ α) (s : σ) : σ := final s ((x s).2.take count)

/-- The state that a run leaves: it goes to its end or is stopped. -/
def interrupt (stop : Option Nat) (x : Prog σ α) (s : σ) : σ :=
  match stop with
  | none => x.after s
  | some count => x.stopped count s

/-! ## Sequences -/

section

variable {x : Prog σ α} {f : α → Prog σ β} {s : σ} {a : α} {states : List σ}

@[simp] theorem pure_run (a : α) (s : σ) : (pure a : Prog σ α) s = (.ok a, []) := rfl

theorem bind_ok (h : x s = (.ok a, states)) :
    (x >>= f) s = ((f a (final s states)).1, states ++ (f a (final s states)).2) := by
  simp [bind, h]

variable {e : String}

theorem bind_error (h : x s = (.error e, states)) : (x >>= f) s = (.error e, states) := by
  simp [bind, h]

variable {look : σ → Except String α}

theorem inspect_bind_ok (h : look s = .ok a) : (inspect look >>= f) s = f a s := by
  simp only [bind, inspect, h]
  rfl

theorem inspect_bind_error (h : look s = .error e) : (inspect look >>= f) s = (.error e, []) := by
  simp [bind, inspect, h]

theorem given_bind_error : (given (.error e) >>= f) s = (.error e, []) := rfl

variable {message : String} {passed : Bool}

theorem check_bind_true {f : Unit → Prog σ β}
    (h : passed = true) : (check passed message >>= f) s = f () s :=
  inspect_bind_ok (if_pos h)

theorem check_bind_false {f : Unit → Prog σ β}
    (h : passed = false) : (check passed message >>= f) s = (.error message, []) :=
  inspect_bind_error (if_neg (ne_true_of_eq_false h))

theorem after_bind (h : (x s).1 = .ok a) : (x >>= f).after s = (f a).after (x.after s) := by
  have hrun : x s = (.ok a, (x s).2) := Prod.ext h rfl
  rw [after, bind_ok hrun, final_append, after, after]

theorem result_bind (h : (x s).1 = .ok a) : ((x >>= f) s).1 = (f a (x.after s)).1 := by
  have hrun : x s = (.ok a, (x s).2) := Prod.ext h rfl
  rw [bind_ok hrun, after]

theorem length_bind (h : (x s).1 = .ok a) :
    ((x >>= f) s).2.length = (x s).2.length + (f a (x.after s)).2.length := by
  have hrun : x s = (.ok a, (x s).2) := Prod.ext h rfl
  rw [bind_ok hrun, length_append, after]

theorem stopped_length (x : Prog σ α) (s : σ) : x.stopped (x s).2.length s = x.after s := by
  rw [stopped, take_length, after]

theorem interrupt_eq_stopped (stop : Option Nat) (x : Prog σ α) (s : σ) :
    interrupt stop x s = x.stopped (stop.getD (x s).2.length) s := by
  cases stop with
  | none => exact (stopped_length x s).symm
  | some count => rfl

/-- A program that changes nothing leaves its state, wherever it is stopped. -/
theorem interrupt_eq_self (h : ∀ t ∈ (x s).2, t = s) (stop : Option Nat) :
    interrupt stop x s = s := by
  have hfinal : ∀ states : List σ, (∀ t ∈ states, t = s) → final s states = s := by
    intro states hstates
    obtain heq | hmem := mem_cons.mp (final_mem s states)
    · exact heq
    · exact hstates _ hmem
  cases stop with
  | none => exact hfinal _ h
  | some count => exact hfinal _ fun t ht => h t (mem_of_mem_take ht)

/-- A sequence that is stopped in its first part. -/
theorem stopped_bind_of_le {count : Nat} (hcount : count ≤ (x s).2.length) :
    (x >>= f).stopped count s = x.stopped count s := by
  rcases hrun : x s with ⟨result, states⟩
  rw [hrun] at hcount
  cases result with
  | error e => rw [stopped, stopped, bind_error hrun, hrun]
  | ok a => rw [stopped, stopped, bind_ok hrun, hrun, take_append_of_le_length hcount]

/-- A sequence that is stopped in its second part. -/
theorem stopped_bind_add (h : (x s).1 = .ok a) (count : Nat) :
    (x >>= f).stopped ((x s).2.length + count) s = (f a).stopped count (x.after s) := by
  have hrun : x s = (.ok a, (x s).2) := Prod.ext h rfl
  rw [stopped, bind_ok hrun, final_take_append, Nat.add_sub_cancel_left,
    take_of_length_le (Nat.le_add_right _ _), stopped, after]

end

/-! ## Invariants -/

/-- Every operation of the program keeps the relation. -/
def Moves (related : σ → σ → Prop) (x : Prog σ α) : Prop :=
  ∀ s, ∀ t ∈ (x s).2, related s t

namespace Moves

variable {related : σ → σ → Prop} {x : Prog σ α} {f : α → Prog σ β}

theorem stopped (h : Moves related x) (hrefl : ∀ s, related s s) (count : Nat) (s : σ) :
    related s (x.stopped count s) := by
  obtain heq | hmem := mem_cons.mp (final_mem s ((x s).2.take count))
  · rw [Prog.stopped, heq]
    exact hrefl s
  · exact h s _ (mem_of_mem_take hmem)

theorem after (h : Moves related x) (hrefl : ∀ s, related s s) (s : σ) : related s (x.after s) := by
  rw [← stopped_length]
  exact h.stopped hrefl _ s

theorem ret (a : α) : Moves related (pure a : Prog σ α) := fun _ _ h => nomatch h

theorem bind (hrefl : ∀ s, related s s) (htrans : ∀ {s t u}, related s t → related t u → related s
    u) (hx : Moves related x) (hf : ∀ a, Moves related (f a)) : Moves related (x >>= f) := by
  intro s t ht
  rcases hrun : x s with ⟨result, states⟩
  have hfirst : related s (final s states) := by
    have hafter := hx.after hrefl s
    rwa [Prog.after, hrun] at hafter
  cases result with
  | error e =>
    rw [bind_error hrun] at ht
    exact hx s t (by rw [hrun]; exact ht)
  | ok a =>
    rw [bind_ok hrun] at ht
    obtain hmem | hmem := mem_append.mp ht
    · exact hx s t (by rw [hrun]; exact hmem)
    · exact htrans hfirst (hf a _ t hmem)

theorem all {body : ι → Prog σ Unit} (hrefl : ∀ s, related s s)
    (htrans : ∀ {s t u}, related s t → related t u → related s u) {items : List ι}
    (h : ∀ item ∈ items, Moves related (body item)) : Moves related (Prog.all body items) := by
  induction items with
  | nil => exact ret ()
  | cons item items ih =>
    exact bind hrefl htrans (h item mem_cons_self) fun _ =>
      ih fun other hother => h other (mem_cons_of_mem _ hother)

end Moves

/-! ## Operations that are made where they are needed -/

/-- Ask whether an item needs its operation, and make it if so. -/
def conditional (needed : ι → σ → Bool) (change : ι → σ → σ) (item : ι) : Prog σ Unit := do
  let found ← observe (needed item)
  if found then operate (change item) else return ()

/-- The operation for one item does not change what another item needs. -/
def Independent (needed : ι → σ → Bool) (change : ι → σ → σ) : Prop :=
  ∀ {item other : ι} (s : σ), other ≠ item → needed other (change item s) = needed other s

section

variable {needed : ι → σ → Bool} {change : ι → σ → σ} {item : ι} {items : List ι} {s : σ}

theorem conditional_run (item : ι) (s : σ) : conditional needed change item s =
    (.ok (), if needed item s then [s, change item s] else [s]) := by
  cases h : needed item s <;> simp [conditional, observe, operate, bind, h]

theorem conditional_after (item : ι) (s : σ) : (conditional needed change item).after s =
    if needed item s then change item s else s := by
  rw [after, conditional_run]
  cases needed item s <;> rfl

theorem Moves.conditional {related : σ → σ → Prop} (hrefl : ∀ s, related s s)
    (h : ∀ s, related s (change item s)) : Moves related (conditional needed change item) := by
  intro s t ht
  rw [conditional_run] at ht
  cases hneeded : needed item s with
  | false =>
    simp only [hneeded, Bool.false_eq_true, if_false, mem_singleton] at ht
    exact ht ▸ hrefl s
  | true =>
    simp only [hneeded, if_true, mem_cons, not_mem_nil, or_false] at ht
    obtain rfl | rfl := ht
    · exact hrefl t
    · exact h s

theorem all_cons_after : (all (conditional needed change) (item :: items)).after s =
    (all (conditional needed change) items).after ((conditional needed change item).after s) :=
  after_bind (congrArg Prod.fst (conditional_run item s))

theorem all_conditional_ok : ((all (conditional needed change) items) s).1 = .ok () := by
  induction items generalizing s with
  | nil => rfl
  | cons item items ih =>
    rw [all, result_bind (congrArg Prod.fst (conditional_run item s))]
    exact ih

namespace Independent

variable {other : ι}

theorem needed_after (h : Independent needed change) (hother : other ≠ item) :
    needed other ((Prog.conditional needed change item).after s) = needed other s := by
  rw [conditional_after]
  split
  · exact h s hother
  · rfl

/-- Each item costs a question, and an operation if it needed one at the start. -/
theorem length_all (h : Independent needed change) (hnodup : items.Nodup) :
    ((all (conditional needed change) items) s).2.length =
      items.length + items.countP (needed · s) := by
  induction items generalizing s with
  | nil => rfl
  | cons item items ih =>
    obtain ⟨hfresh, hnodup⟩ := nodup_cons.mp hnodup
    have hrest : items.countP (needed · ((Prog.conditional needed change item).after s)) =
        items.countP (needed · s) := by
      refine countP_congr fun other hother => ?_
      have hdiff : other ≠ item := fun heq => hfresh (heq ▸ hother)
      rw [h.needed_after hdiff]
    rw [all, length_bind (congrArg Prod.fst (conditional_run item s)), ih hnodup, hrest,
      conditional_run, length_cons, countP_cons]
    cases needed item s <;> simp <;> omega

theorem needed_after_all (h : Independent needed change) (hother : other ∉ items) :
    needed other ((all (conditional needed change) items).after s) = needed other s := by
  induction items generalizing s with
  | nil => rfl
  | cons item items ih =>
    rw [mem_cons, not_or] at hother
    rw [all_cons_after, ih hother.2, h.needed_after hother.1]

/-- At the end no item needs its operation. -/
theorem not_needed_after_all (h : Independent needed change)
    (hdone : ∀ item s, needed item (change item s) = false) (hnodup : items.Nodup)
    (hitem : item ∈ items) :
    needed item ((all (conditional needed change) items).after s) = false := by
  induction items generalizing s with
  | nil => cases hitem
  | cons first items ih =>
    obtain ⟨hfresh, hnodup⟩ := nodup_cons.mp hnodup
    rw [all_cons_after]
    obtain rfl | hitem := mem_cons.mp hitem
    · rw [h.needed_after_all hfresh, conditional_after]
      cases hneeded : needed item s with
      | false => simpa using hneeded
      | true => exact hdone item s
    · exact ih hnodup hitem

end Independent

end

end Prog

end Stepwise
