import Atum.Library.FileTree

/-!
# Programs on a disk that may fail or crash

A program works on a file tree.  Every call that it makes has a fate: it is
done, it fails, or the machine crashes in it.  A call that fails or crashes may
leave part of its effect behind, and the fate carries that part, so a program
with its fates is an ordinary function on worlds.  A statement for all fates is
a statement about every pattern of failures and every crash point.

`wp` is the weakest precondition of a program.  It separates three ways to end:
a value, an error, and a crash.  An error may be handled; after a crash nothing
of the program runs any more.  `Dependable` is the shape that most programs have:
they end well unless a call fails or the machine crashes.  `Framed` says where a
program can change the tree at all.
-/

namespace Faults

open FileTree

/-- What a call that did not end well left behind. -/
structure Damage (δ : Type) where
  /-- A call that takes effect at once had done so. -/
  applied : Bool := false
  /-- What a file that was being written holds. -/
  leftover : Option (Nat × δ) := none
  /-- What a removal had not reached. -/
  survives : TreePath → Bool := fun _ => false
  /-- How many directories of a path had been created. -/
  created : Nat := 0

/-- The fate of a call. -/
inductive Fate (δ : Type) where
  | done
  | fail (damage : Damage δ)
  | crash (damage : Damage δ)

namespace Fate

variable {δ : Type}

def isFail : Fate δ → Bool
  | .fail _ => true
  | _ => false

def isCrash : Fate δ → Bool
  | .crash _ => true
  | _ => false

end Fate

/-- How a program ends. -/
inductive Exit (α : Type) where
  | ok (value : α)
  | error (message : String)
  | crashed
  deriving DecidableEq, Repr

structure World (δ : Type) where
  tree : FileTree δ
  /-- Every rename that took effect: its target and the node it put there. -/
  renamed : List (TreePath × Node δ) := []

def Prog (δ α : Type) : Type := World δ → Exit α × World δ

namespace Prog

variable {δ α β : Type}

instance : Monad (Prog δ) where
  pure a := fun w => (.ok a, w)
  bind x f := fun w =>
    match x w with
    | (.ok a, w') => f a w'
    | (.error e, w') => (.error e, w')
    | (.crashed, w') => (.crashed, w')

/-- End with an error. -/
def throw (message : String) : Prog δ α := fun w => (.error message, w)

/-- Run a program and look at its error. -/
def attempt (x : Prog δ α) : Prog δ (Except String α) := fun w =>
  match x w with
  | (.ok a, w') => (.ok (.ok a), w')
  | (.error e, w') => (.ok (.error e), w')
  | (.crashed, w') => (.crashed, w')

/-- Run a program and ignore how it ends. -/
def ignore (x : Prog δ α) : Prog δ Unit := fun w =>
  match x w with
  | (.crashed, w') => (.crashed, w')
  | (_, w') => (.ok (), w')

/-- Say more in the error of a program. -/
def context (describe : String → String) (x : Prog δ α) : Prog δ α := fun w =>
  match x w with
  | (.error e, w') => (.error (describe e), w')
  | other => other

def ofExcept (x : Except String α) : Prog δ α :=
  match x with
  | .ok a => pure a
  | .error e => throw e

theorem ofExcept_ok_bind (a : α) (f : α → Prog δ β) : (ofExcept (.ok a) >>= f) = f a := rfl

/-- Other programs change the tree. -/
def interfere (edit : FileTree δ → FileTree δ) : Prog δ Unit := fun w =>
  (.ok (), { w with tree := edit w.tree })

/-! ## Calls -/

/-- A call that only looks at the tree. -/
def inspect (fate : Fate δ) (look : FileTree δ → Except String α) : Prog δ α := fun w =>
  match fate with
  | .done =>
    match look w.tree with
    | .ok a => (.ok a, w)
    | .error e => (.error e, w)
  | .fail _ => (.error "input/output error", w)
  | .crash _ => (.crashed, w)

/-- What a call does to the world when it is done, when it fails, and when the
machine crashes in it. -/
structure Operation (δ : Type) where
  done : World δ → Except Errno (World δ)
  failed : Damage δ → World δ → World δ
  crashed : Damage δ → World δ → World δ

/-- A call that changes the tree. -/
def call (fate : Fate δ) (operation : Operation δ) : Prog δ Unit :=
  fun w =>
    match fate with
    | .done =>
      match operation.done w with
      | .ok w' => (.ok (), w')
      | .error e => (.error e.text, w)
    | .fail damage => (.error "input/output error", operation.failed damage w)
    | .crash damage => (.crashed, operation.crashed damage w)

namespace Operation

/-- An operation that happens or does not. -/
def atomic (done : World δ → Except Errno (World δ)) : Operation δ where
  done := done
  failed _ w := w
  crashed damage w :=
    if damage.applied then
      match done w with
      | .ok w' => w'
      | .error _ => w
    else w

/-- An operation on the tree that may stop halfway. -/
def gradual (done : FileTree δ → Except Errno (FileTree δ))
    (broken : Damage δ → FileTree δ → FileTree δ) : Operation δ where
  done w :=
    match done w.tree with
    | .ok t => .ok { w with tree := t }
    | .error e => .error e
  failed damage w := { w with tree := broken damage w.tree }
  crashed damage w := { w with tree := broken damage w.tree }

/-- An operation on the tree that happens or does not. -/
def atomicTree (done : FileTree δ → Except Errno (FileTree δ)) : Operation δ :=
  atomic fun w =>
    match done w.tree with
    | .ok t => .ok { w with tree := t }
    | .error e => .error e

/-- Create one directory. -/
def mkdir (path : TreePath) : Operation δ := atomicTree fun t => t.mkdir path

/-- Create a directory and those above it, from the top down. -/
def mkdirAll (path : TreePath) : Operation δ :=
  gradual (fun t => t.mkdirAll path) fun damage t =>
    match t.mkdirAll (path.take damage.created) with
    | .ok t' => t'
    | .error _ => t

/-- Write a new file.  Halfway the file holds anything. -/
def write (path : TreePath) (mode : Nat) (data : δ) : Operation δ :=
  gradual (fun t => t.create path mode data) fun damage t =>
    match damage.leftover with
    | none => t
    | some (mode', data') =>
      match t.create path mode' data' with
      | .ok t' => t'
      | .error _ => t

/-- Move a file, and note the move. -/
def rename (source target : TreePath) : Operation δ :=
  atomic fun w =>
    match w.tree.get source, w.tree.rename source target with
    | some node, .ok t => .ok { w with tree := t, renamed := w.renamed ++ [(target, node)] }
    | _, .error e => .error e
    | none, .ok _ => .error .notExist

/-- Remove a file. -/
def remove (path : TreePath) : Operation δ := atomicTree fun t => t.remove path

/-- Remove a directory with everything in it, in any order. -/
def removeAll (path : TreePath) : Operation δ :=
  gradual (fun t => .ok (t.removeAll path fun _ => false)) fun damage t =>
    t.removeAll path damage.survives

end Operation

/-! ## Weakest preconditions -/

/-- Every end of the program from `w` is as required. -/
def wp (x : Prog δ α) (post : Except String α → World δ → Prop) (crash : World δ → Prop)
    (w : World δ) : Prop :=
  match x w with
  | (.ok a, w') => post (.ok a) w'
  | (.error e, w') => post (.error e) w'
  | (.crashed, w') => crash w'

variable {x : Prog δ α} {post post' : Except String α → World δ → Prop}
  {crash crash' : World δ → Prop} {w : World δ}

theorem wp_mono (h : x.wp post crash w) (hpost : ∀ r w', post r w' → post' r w')
    (hcrash : ∀ w', crash w' → crash' w') : x.wp post' crash' w := by
  unfold wp at h ⊢
  split
  · next a w' heq =>
    simp only [heq] at h
    exact hpost _ _ h
  · next e w' heq =>
    simp only [heq] at h
    exact hpost _ _ h
  · next w' heq =>
    simp only [heq] at h
    exact hcrash _ h

/-- What a weakest precondition says about the run from `w`. -/
theorem wp_exit (h : x.wp post crash w) : (∃ a, (x w).1 = .ok a ∧ post (.ok a) (x w).2) ∨
      (∃ e, (x w).1 = .error e ∧ post (.error e) (x w).2) ∨ (x w).1 = .crashed ∧ crash (x w).2 := by
  unfold wp at h
  split at h
  · next a w' heq => exact .inl ⟨a, by rw [heq], by rwa [heq]⟩
  · next e w' heq => exact .inr (.inl ⟨e, by rw [heq], by rwa [heq]⟩)
  · next w' heq => exact .inr (.inr ⟨by rw [heq], by rwa [heq]⟩)

theorem wp_pure {a : α} (h : post (.ok a) w) : (pure a : Prog δ α).wp post crash w := h

theorem wp_throw {e : String} (h : post (.error e) w) : (throw e : Prog δ α).wp post crash w := h

/-- A sequence: the second part starts where the first one ended. -/
theorem wp_bind {f : α → Prog δ β} {post : Except String β → World δ → Prop} (h : x.wp (fun r w' =>
      match r with
      | .ok a => (f a).wp post crash w'
      | .error e => post (.error e) w') crash w) :
    (x >>= f).wp post crash w := by
  unfold wp at h ⊢
  change match (match x w with
    | (.ok a, w') => f a w'
    | (.error e, w') => (.error e, w')
    | (.crashed, w') => (.crashed, w')) with
    | (.ok a, w') => post (.ok a) w'
    | (.error e, w') => post (.error e) w'
    | (.crashed, w') => crash w'
  cases hx : x w with
  | mk exit w' =>
    cases exit with
    | ok a => simpa [hx, wp] using h
    | error e => simpa [hx] using h
    | crashed => simpa [hx] using h

theorem wp_attempt {post : Except String (Except String α) → World δ → Prop}
    (h : x.wp (fun r w' => post (.ok r) w') crash w) : x.attempt.wp post crash w := by
  unfold wp attempt at *
  cases hx : x w with
  | mk exit w' => cases exit <;> simpa [hx] using h

theorem wp_ignore {post : Except String Unit → World δ → Prop}
    (h : x.wp (fun _ w' => post (.ok ()) w') crash w) : x.ignore.wp post crash w := by
  unfold wp ignore at *
  cases hx : x w with
  | mk exit w' => cases exit <;> simpa [hx] using h

/-- The text of an error does not matter to a rule. -/
theorem wp_context {describe : String → String}
    (h : x.wp (fun r w' => post (r.mapError describe) w') crash w) :
    (x.context describe).wp post crash w := by
  unfold wp context at *
  cases hx : x w with
  | mk exit w' => cases exit <;> simpa [hx, Except.mapError] using h

theorem wp_ofExcept {r : Except String α} (h : post r w) :
    (ofExcept r : Prog δ α).wp post crash w := by
  cases r with
  | ok a => exact h
  | error e => exact h

theorem wp_interfere {edit : FileTree δ → FileTree δ} {post : Except String Unit → World δ → Prop}
    (h : post (.ok ()) { w with tree := edit w.tree }) : (interfere edit).wp post crash w := h

variable {fate : Fate δ}

/-- A call that looks: it returns what it saw, or it fails for a reason. -/
theorem wp_inspect {look : FileTree δ → Except String α}
    (hok : ∀ a, look w.tree = .ok a → post (.ok a) w)
    (herr : fate.isFail = true ∨ (∃ e, look w.tree = .error e) → ∀ e, post (.error e) w)
    (hcrash : fate.isCrash = true → crash w) : (inspect fate look).wp post crash w := by
  unfold wp inspect
  cases fate with
  | done =>
    cases hlook : look w.tree with
    | ok a => exact hok a hlook
    | error e => exact herr (.inr ⟨e, hlook⟩) e
  | fail damage => exact herr (.inl rfl) _
  | crash damage => exact hcrash rfl

variable {operation : Operation δ}

/-- A call that changes the tree. -/
theorem wp_call {post : Except String Unit → World δ → Prop}
    (hok : ∀ w', operation.done w = .ok w' → post (.ok ()) w')
    (herr : ∀ e, operation.done w = .error e → post (.error e.text) w)
    (hfail : fate.isFail = true → ∀ damage e, post (.error e) (operation.failed damage w))
    (hcrash : fate.isCrash = true → ∀ damage, crash (operation.crashed damage w)) :
    (call fate operation).wp post crash w := by
  unfold wp call
  cases fate with
  | done =>
    cases hdone : operation.done w with
    | ok w' => exact hok w' hdone
    | error e => exact herr e hdone
  | fail damage => exact hfail rfl damage _
  | crash damage => exact hcrash rfl damage

/-- A call whose fate is to fail. -/
theorem wp_call_of_fail {post : Except String Unit → World δ → Prop} (h : fate.isFail = true)
    (hpost : ∀ damage, post (.error "input/output error") (operation.failed damage w)) :
    (call fate operation).wp post crash w := by
  cases fate with
  | done => cases h
  | fail damage => exact hpost damage
  | crash damage => cases h

/-! ## The rules of the calls -/

section Calls

variable {fate : Fate δ} {path source target : TreePath}
  {post : Except String Unit → World δ → Prop}

/-- An operation that happens or does not. -/
theorem wp_atomic {done : World δ → Except Errno (World δ)}
    (hok : ∀ w', done w = .ok w' → post (.ok ()) w')
    (herr : fate.isFail = true ∨ (∃ e, done w = .error e) → ∀ e, post (.error e) w)
    (hcrash : fate.isCrash = true → crash w ∧ ∀ w', done w = .ok w' → crash w') :
    (call fate (.atomic done)).wp post crash w := by
  refine wp_call hok (fun e he => herr (.inr ⟨e, he⟩) _) (fun hfail _ e => herr (.inl hfail) e)
    fun hc damage => ?_
  obtain ⟨hbefore, hafter⟩ := hcrash hc
  simp only [Operation.atomic]
  split
  · cases hdone : done w with
    | ok w' => exact hafter w' hdone
    | error e => exact hbefore
  · exact hbefore

variable {done : FileTree δ → Except Errno (FileTree δ)}

/-- An operation that may stop halfway, anywhere in `halfway`. -/
theorem wp_gradual {broken : Damage δ → FileTree δ → FileTree δ} {halfway : FileTree δ → Prop}
    (hbroken : ∀ damage, halfway (broken damage w.tree)) (hself : halfway w.tree)
    (hok : ∀ t, done w.tree = .ok t → post (.ok ()) { w with tree := t })
    (herr : fate.isFail = true ∨ (∃ e, done w.tree = .error e) → ∀ t e, halfway t →
      post (.error e) { w with tree := t })
    (hcrash : fate.isCrash = true → ∀ t, halfway t → crash { w with tree := t }) :
    (call fate (.gradual done broken)).wp post crash w := by
  refine wp_call ?_ ?_ (fun hfail damage e => herr (.inl hfail) _ e (hbroken damage))
    fun hc damage => hcrash hc _ (hbroken damage)
  · intro w' hw'
    simp only [Operation.gradual] at hw'
    split at hw'
    · next t ht =>
      cases hw'
      exact hok t ht
    · cases hw'
  intro e he
  simp only [Operation.gradual] at he
  split at he
  · cases he
  · next e' he' => exact herr (.inr ⟨e', he'⟩) w.tree _ hself

/-- An operation on the tree that happens or does not. -/
theorem wp_atomicTree (hok : ∀ t, done w.tree = .ok t → post (.ok ()) { w with tree := t })
    (herr : fate.isFail = true ∨ (∃ e, done w.tree = .error e) → ∀ e, post (.error e) w)
    (hcrash : fate.isCrash = true → crash w ∧
      ∀ t, done w.tree = .ok t → crash { w with tree := t }) :
    (call fate (.atomicTree done)).wp post crash w := by
  refine wp_atomic ?_ ?_ ?_
  · intro w' hw'
    cases hdone : done w.tree with
    | ok t =>
      simp only [hdone] at hw'
      exact Except.ok.inj hw' ▸ hok t hdone
    | error e => simp [hdone] at hw'
  · rintro (hfail | ⟨e, he⟩)
    · exact herr (.inl hfail)
    · cases hdone : done w.tree with
      | ok t => simp [hdone] at he
      | error e' => exact herr (.inr ⟨e', hdone⟩)
  intro hc
  refine ⟨(hcrash hc).1, fun w' hw' => ?_⟩
  cases hdone : done w.tree with
  | ok t =>
    simp only [hdone] at hw'
    exact Except.ok.inj hw' ▸ (hcrash hc).2 t hdone
  | error e => simp [hdone] at hw'

/-- Creating directories only adds directories, however far it comes. -/
theorem wp_mkdirAll (hok : ∀ t, w.tree.Grows t path → t.get path = some .directory →
      post (.ok ()) { w with tree := t })
    (herr : fate.isFail = true ∨ (∃ e, w.tree.mkdirAll path = .error e) → ∀ t e,
      w.tree.Grows t path → post (.error e) { w with tree := t })
    (hcrash : fate.isCrash = true → ∀ t, w.tree.Grows t path → crash { w with tree := t }) :
    (call fate (.mkdirAll path)).wp post crash w := by
  refine wp_gradual (fun damage => ?_) (FileTree.Grows.refl _ _)
    (fun t ht => hok t (mkdirAll_ok ht).1 (mkdirAll_ok ht).2) herr hcrash
  split
  · next t ht =>
    intro other
    rcases (mkdirAll_ok ht).1 other with hsame | ⟨hnone, hdir, hpre⟩
    · exact .inl hsame
    · exact .inr ⟨hnone, hdir, hpre.trans <| List.take_prefix _ _⟩
  · exact FileTree.Grows.refl _ _

/-- The tree while a new file is written: the file is there or not, and it holds
anything. -/
def Writing (t t' : FileTree δ) (path : TreePath) : Prop :=
  t' = t ∨ t.get path = none ∧ ∃ mode data, t.Changes t' path (some (.regular mode data))

theorem wp_write {mode : Nat} {data : δ}
    (hok : ∀ t, w.tree.get path = none → w.tree.Changes t path (some (.regular mode data)) →
      post (.ok ()) { w with tree := t })
    (herr : fate.isFail = true ∨ (∃ e, w.tree.create path mode data = .error e) → ∀ t e,
      Writing w.tree t path → post (.error e) { w with tree := t })
    (hcrash : fate.isCrash = true → ∀ t, Writing w.tree t path → crash { w with tree := t }) :
    (call fate (.write path mode data)).wp post crash w := by
  refine wp_gradual (fun damage => ?_) (.inl rfl)
    (fun t ht => hok t (create_ok ht).1 (create_ok ht).2) herr hcrash
  split
  · exact .inl rfl
  next mode' data' _ =>
  split
  · next t ht => exact .inr ⟨(create_ok ht).1, _, _, (create_ok ht).2⟩
  · exact .inl rfl

/-- What a rename does to the world. -/
structure Moves (w w' : World δ) (source target : TreePath) (node : Node δ) : Prop where
  found : w.tree.get source = some node
  file : node ≠ .directory
  notDirectory : w.tree.get target ≠ some .directory
  get : ∀ other, w'.tree.get other =
    if other = target then some node else if other = source then none else w.tree.get other
  noted : w'.renamed = w.renamed ++ [(target, node)]

theorem wp_rename (hok : ∀ w' node, Moves w w' source target node → post (.ok ()) w')
    (herr : fate.isFail = true ∨ (∃ e, w.tree.rename source target = .error e) →
      ∀ e, post (.error e) w) (hcrash : fate.isCrash = true → crash w ∧
      ∀ w' node, Moves w w' source target node → crash w') :
    (call fate (.rename source target)).wp post crash w := by
  have hmoves : ∀ node t, w.tree.get source = some node → w.tree.rename source target = .ok t →
      Moves w { w with tree := t, renamed := w.renamed ++ [(target, node)] }
        source target node := by
    intro node t hnode ht
    obtain ⟨node', hfound, hfile, hover, hget⟩ := rename_ok ht
    obtain rfl : node = node' := Option.some.inj (hnode.symm.trans hfound)
    exact ⟨hfound, hfile, hover, hget, rfl⟩
  refine wp_atomic ?_ ?_ ?_
  · intro w' hw'
    split at hw'
    · next node t hnode ht =>
      cases hw'
      exact hok _ node (hmoves node t hnode ht)
    · cases hw'
    · cases hw'
  · rintro (hfail | ⟨e, he⟩)
    · exact herr (.inl hfail)
    split at he
    · cases he
    · next e' he' => exact herr (.inr ⟨e', he'⟩)
    next hnone ht =>
    obtain ⟨node, hnode, -⟩ := rename_ok ht
    rw [hnode] at hnone
    cases hnone
  · intro hc
    refine ⟨(hcrash hc).1, fun w' hw' => ?_⟩
    split at hw'
    · next node t hnode ht =>
      cases hw'
      exact (hcrash hc).2 _ node (hmoves node t hnode ht)
    · cases hw'
    · cases hw'

/-- A removal of a directory takes some of it away, or all. -/
theorem wp_removeAll (hok : post (.ok ()) { w with tree := w.tree.removeAll path fun _ => false })
    (herr : fate.isFail = true → ∀ survives e,
      post (.error e) { w with tree := w.tree.removeAll path survives })
    (hcrash : fate.isCrash = true → ∀ survives,
      crash { w with tree := w.tree.removeAll path survives }) :
    (call fate (.removeAll path)).wp post crash w := by
  refine wp_call ?_ ?_ (fun hfail damage e => herr hfail damage.survives e)
    fun hc damage => hcrash hc damage.survives
  · intro w' hw'
    cases hw'
    exact hok
  · intro e he
    cases he

end Calls

/-! ## Guarded programs -/

/-- From `w` the program ends with a `good` value, or it leaves the world `safe`. -/
def Guarded (x : Prog δ α) (good : α → World δ → Prop) (safe : World δ → Prop)
    (w : World δ) : Prop :=
  x.wp (fun r w' =>
    match r with
    | .ok a => good a w'
    | .error _ => safe w') safe w

namespace Guarded

variable {good good' : α → World δ → Prop} {safe safe' : World δ → Prop}

theorem mono (h : Guarded x good safe w) (hgood : ∀ a w', good a w' → good' a w')
    (hsafe : ∀ w', safe w' → safe' w') : Guarded x good' safe' w := by
  refine wp_mono h (fun r w' hr => ?_) hsafe
  cases r with
  | ok a => exact hgood a w' hr
  | error e => exact hsafe w' hr

theorem imp (h : Guarded x good safe w) (hgood : ∀ a w', good a w' → good' a w') :
    Guarded x good' safe w :=
  h.mono hgood fun _ hw => hw

/-- What is known about the run itself. -/
theorem of_run (h : Guarded x good safe w) :
    Guarded x (fun a w' => x w = (.ok a, w') ∧ good a w')
      (fun w' => (x w).2 = w' ∧ safe w') w := by
  unfold Guarded wp at h ⊢
  split
  · next a w' hrun =>
    simp only [hrun] at h
    exact ⟨hrun, h⟩
  · next e w' hrun =>
    simp only [hrun] at h
    exact ⟨congrArg Prod.snd hrun, h⟩
  · next w' hrun =>
    simp only [hrun] at h
    exact ⟨congrArg Prod.snd hrun, h⟩

theorem ret {a : α} (h : good a w) : Guarded (pure a) good safe w := wp_pure h

theorem bind {result : β → World δ → Prop} {f : α → Prog δ β}
    (h : Guarded x (fun a w' => Guarded (f a) result safe w') safe w) :
    Guarded (x >>= f) result safe w := wp_bind h

theorem describe {text : String → String} (h : Guarded x good safe w) :
    Guarded (x.context text) good safe w := by
  refine wp_context (wp_mono h (fun r w' hr => ?_) fun w' hw' => hw')
  cases r with
  | ok a => exact hr
  | error e => exact hr

theorem look {read : FileTree δ → Except String α} (hsafe : safe w)
    (h : ∀ a, read w.tree = .ok a → good a w) : Guarded (inspect fate read) good safe w :=
  wp_inspect h (fun _ _ => hsafe) fun _ => hsafe

variable {good : Unit → World δ → Prop} {path source target : TreePath}

theorem atomicTree {done : FileTree δ → Except Errno (FileTree δ)} (hsafe : safe w)
    (hdone : ∀ t, done w.tree = .ok t → safe { w with tree := t })
    (h : ∀ t, done w.tree = .ok t → good () { w with tree := t }) :
    Guarded (call fate (.atomicTree done)) good safe w :=
  wp_atomicTree h (fun _ _ => hsafe) fun _ => ⟨hsafe, hdone⟩

theorem mkdirAll (hsafe : ∀ t, w.tree.Grows t path → safe { w with tree := t })
    (h : ∀ t, w.tree.Grows t path → t.get path = some .directory → good () { w with tree := t }) :
    Guarded (call fate (.mkdirAll path)) good safe w :=
  wp_mkdirAll h (fun _ t _ ht => hsafe t ht) fun _ => hsafe

theorem rename (hsafe : safe w) (hmoved : ∀ w' node, Moves w w' source target node → safe w')
    (h : ∀ w' node, Moves w w' source target node → good () w') :
    Guarded (call fate (.rename source target)) good safe w :=
  wp_rename h (fun _ _ => hsafe) fun _ => ⟨hsafe, hmoved⟩

end Guarded

/-! ## Dependable programs

A program is dependable if it ends well unless a call fails or the machine
crashes, and if the world is safe even then. -/

/-- From `w` the program ends with a `good` value.  After an error the world is
`safe` and some call was `failing`; after a crash it is safe as well. -/
def Dependable (x : Prog δ α) (failing crashing : Prop) (good : α → World δ → Prop)
    (safe : World δ → Prop) (w : World δ) : Prop :=
  x.wp (fun r w' =>
    match r with
    | .ok a => good a w'
    | .error _ => safe w' ∧ failing) (fun w' => safe w' ∧ crashing) w

namespace Dependable

variable {failing crashing failing' crashing' : Prop} {good good' : α → World δ → Prop}
  {safe safe' : World δ → Prop}

theorem mono (h : Dependable x failing crashing good safe w)
    (hgood : ∀ a w', good a w' → good' a w') (hsafe : ∀ w', safe w' → safe' w')
    (hfailing : failing → failing') (hcrashing : crashing → crashing') :
    Dependable x failing' crashing' good' safe' w := by
  refine wp_mono h (fun r w' hr => ?_) fun w' hw' => ⟨hsafe w' hw'.1, hcrashing hw'.2⟩
  cases r with
  | ok a => exact hgood a w' hr
  | error e => exact ⟨hsafe w' hr.1, hfailing hr.2⟩

theorem imp (h : Dependable x failing crashing good safe w)
    (hgood : ∀ a w', good a w' → good' a w') : Dependable x failing crashing good' safe w :=
  h.mono hgood (fun _ h => h) (fun h => h) fun h => h

theorem guarded (h : Dependable x failing crashing good safe w) : Guarded x good safe w := by
  refine wp_mono h (fun r w' hr => ?_) fun _ hw => hw.1
  cases r with
  | ok a => exact hr
  | error e => exact hr.1

variable {a : α}

theorem ret (h : good a w) : Dependable (pure a) failing crashing good safe w :=
  wp_pure h

theorem raise {e : String} (hsafe : safe w) (hfailing : failing) :
    Dependable (throw e : Prog δ α) failing crashing good safe w :=
  wp_throw ⟨hsafe, hfailing⟩

variable {result : β → World δ → Prop}

theorem bind {f : α → Prog δ β} (h : Dependable x failing crashing
      (fun a w' => Dependable (f a) failing crashing result safe w') safe w) :
    Dependable (x >>= f) failing crashing result safe w := wp_bind h

/-- A program that looks at the error of another one. -/
theorem attempt_bind {f : Except String α → Prog δ β} (h : Dependable x failing crashing
      (fun a w' => Dependable (f (.ok a)) failing crashing result safe w') safe w)
    (herr : ∀ e w', safe w' → failing → Dependable (f (.error e)) failing crashing result safe w') :
    Dependable (x.attempt >>= f) failing crashing result safe w := by
  refine wp_bind (wp_attempt (wp_mono h (fun r w' hr => ?_) fun w' hw' => hw'))
  cases r with
  | ok a => exact hr
  | error e => exact herr e w' hr.1 hr.2

theorem describe {text : String → String} (h : Dependable x failing crashing good safe w) :
    Dependable (x.context text) failing crashing good safe w := by
  refine wp_context (wp_mono h (fun r w' hr => ?_) fun w' hw' => hw')
  cases r with
  | ok a => exact hr
  | error e => exact hr

theorem look {read : FileTree δ → Except String α} (hsafe : safe w)
    (hcrash : fate.isCrash = true → crashing)
    (hfail : fate.isFail = true ∨ (∃ e, read w.tree = .error e) → failing)
    (h : ∀ a, read w.tree = .ok a → good a w) :
    Dependable (inspect fate read) failing crashing good safe w :=
  wp_inspect h (fun hwhy _ => ⟨hsafe, hfail hwhy⟩) fun hc => ⟨hsafe, hcrash hc⟩

end Dependable

/-! ## Runs that end well -/

section Runs

variable {a : α} {w' : World δ}

/-- A sequence ends well if both of its parts do. -/
theorem bind_eq_ok {f : α → Prog δ β} {b : β} (h : (x >>= f) w = (.ok b, w')) :
    ∃ a w₁, x w = (.ok a, w₁) ∧ f a w₁ = (.ok b, w') := by
  change (match x w with
    | (.ok a, w₁) => f a w₁
    | (.error e, w₁) => (.error e, w₁)
    | (.crashed, w₁) => (.crashed, w₁)) = (.ok b, w') at h
  split at h
  · next a w₁ heq => exact ⟨a, w₁, heq, h⟩
  · cases h
  · cases h

theorem bind_of_ok {f : α → Prog δ β} (h : x w = (.ok a, w')) : (x >>= f) w = f a w' := by
  change (match x w with
    | (.ok a, w₁) => f a w₁
    | (.error e, w₁) => (.error e, w₁)
    | (.crashed, w₁) => (.crashed, w₁)) = f a w'
  rw [h]

theorem pure_eq_ok {b : α} (h : (pure a : Prog δ α) w = (.ok b, w')) : a = b ∧ w' = w := by
  obtain ⟨hval, hworld⟩ := Prod.mk.inj h
  exact ⟨Exit.ok.inj hval, hworld.symm⟩

theorem context_eq_ok {describe : String → String} (h : x.context describe w = (.ok a, w')) :
    x w = (.ok a, w') := by
  unfold context at h
  split at h
  · cases h
  · exact h

variable {r : Except String α}

theorem ofExcept_eq_ok (h : (ofExcept r : Prog δ α) w = (.ok a, w')) : r = .ok a ∧ w' = w := by
  cases r with
  | ok b =>
    obtain ⟨rfl, rfl⟩ := pure_eq_ok h
    exact ⟨rfl, rfl⟩
  | error e => cases h

theorem inspect_eq_ok {look : FileTree δ → Except String α}
    (h : inspect fate look w = (.ok a, w')) : look w.tree = .ok a ∧ w' = w := by
  cases fate with
  | done =>
    cases hlook : look w.tree with
    | ok b =>
      simp only [inspect, hlook] at h
      obtain ⟨rfl, rfl⟩ := pure_eq_ok h
      exact ⟨rfl, rfl⟩
    | error e =>
      simp only [inspect, hlook] at h
      cases h
  | fail damage => cases h
  | crash damage => cases h

variable {u : Unit}

theorem call_eq_ok (h : call fate operation w = (.ok u, w')) : operation.done w = .ok w' := by
  cases fate with
  | done =>
    cases hdone : operation.done w with
    | ok w₁ =>
      simp only [call, hdone] at h
      rw [(Prod.mk.inj h).2]
    | error e =>
      simp only [call, hdone] at h
      cases h
  | fail damage => cases h
  | crash damage => cases h

variable {done : FileTree δ → Except Errno (FileTree δ)}

/-- An operation on the tree that was done. -/
theorem atomicTree_eq_ok
    (h : (Operation.atomicTree done).done w = .ok w') : done w.tree = .ok w'.tree := by
  simp only [Operation.atomicTree, Operation.atomic] at h
  split at h
  · next t ht =>
    cases h
    exact ht
  · cases h

theorem attempt_eq_ok (h : x.attempt w = (.ok r, w')) :
    (∃ a, r = .ok a ∧ x w = (.ok a, w')) ∨ ∃ e, r = .error e ∧ x w = (.error e, w') := by
  unfold attempt at h
  split at h
  · next a w₁ heq =>
    obtain ⟨hval, rfl⟩ := Prod.mk.inj h
    exact .inl ⟨a, (Exit.ok.inj hval).symm, heq⟩
  · next e w₁ heq =>
    obtain ⟨hval, rfl⟩ := Prod.mk.inj h
    exact .inr ⟨e, (Exit.ok.inj hval).symm, heq⟩
  · cases h

/-- What a weakest precondition says about a run that ends well. -/
theorem wp_ok (h : x.wp post crash w) (hrun : x w = (.ok a, w')) : post (.ok a) w' := by
  unfold wp at h
  rw [hrun] at h
  exact h

/-- A rename that was done. -/
theorem call_rename_ok {source target : TreePath}
    (h : call fate (.rename source target) w = (.ok u, w')) :
    ∃ node, Moves w w' source target node := by
  have hwp : (call fate (.rename source target)).wp
      (fun r w' => r = .ok u → ∃ node, Moves w w' source target node) (fun _ => True) w :=
    wp_rename (fun _ node hmoves _ => ⟨node, hmoves⟩) (fun _ _ => nofun)
      fun _ => ⟨trivial, fun _ _ _ => trivial⟩
  exact wp_ok hwp h rfl

end Runs

/-! ## Frames -/

/-- The program changes nothing outside of a region, however it ends, and it only
crashes under a condition. -/
def Framed (x : Prog δ α) (inside : TreePath → Prop) (crashing : Prop) : Prop :=
  ∀ w, x.wp (fun _ w' => w.tree.SameOutside inside w'.tree)
    (fun w' => w.tree.SameOutside inside w'.tree ∧ crashing) w

namespace Framed

variable {inside : TreePath → Prop} {crashing crashing' : Prop} {fate : Fate δ} {path : TreePath}

theorem mono (h : Framed x inside crashing) (hcrash : crashing → crashing') :
    Framed x inside crashing' := fun w =>
  wp_mono (h w) (fun _ _ h' => h') fun _ h' => ⟨h'.1, hcrash h'.2⟩

theorem ret (a : α) : Framed (pure a : Prog δ α) inside crashing := fun _ =>
  wp_pure (FileTree.SameOutside.refl _ _)

theorem raise (e : String) : Framed (throw e : Prog δ α) inside crashing := fun _ =>
  wp_throw (FileTree.SameOutside.refl _ _)

theorem bind {f : α → Prog δ β} (hx : Framed x inside crashing)
    (hf : ∀ a, Framed (f a) inside crashing) : Framed (x >>= f) inside crashing := by
  intro w
  refine wp_bind (wp_mono (hx w) (fun r w' h => ?_) fun _ h => h)
  cases r with
  | ok a =>
    exact wp_mono (hf a w') (fun _ _ h' => h.trans h') fun _ h' => ⟨h.trans h'.1, h'.2⟩
  | error e => exact h

theorem attempt (h : Framed x inside crashing) : Framed x.attempt inside crashing := fun w =>
  wp_attempt (h w)

theorem ignore (h : Framed x inside crashing) : Framed x.ignore inside crashing := fun w =>
  wp_ignore (h w)

theorem describe {text : String → String} (h : Framed x inside crashing) :
    Framed (x.context text) inside crashing := fun w => wp_context (h w)

theorem look {read : FileTree δ → Except String α} (hcrash : fate.isCrash = true → crashing) :
    Framed (inspect fate read) inside crashing := fun _ =>
  wp_inspect (fun _ _ => FileTree.SameOutside.refl _ _) (fun _ _ => FileTree.SameOutside.refl _ _)
    fun hc => ⟨FileTree.SameOutside.refl _ _, hcrash hc⟩

/-- An operation that changes one path of the region, or nothing. -/
theorem atomicTree {done : FileTree δ → Except Errno (FileTree δ)}
    (hcrash : fate.isCrash = true → crashing)
    (hdone : ∀ t t', done t = .ok t' → t.SameOutside inside t') :
    Framed (call fate (.atomicTree done)) inside crashing := fun w =>
  wp_atomicTree (fun t ht => hdone w.tree t ht) (fun _ _ => FileTree.SameOutside.refl _ _)
    fun hc => ⟨⟨FileTree.SameOutside.refl _ _, hcrash hc⟩,
      fun t ht => ⟨hdone w.tree t ht, hcrash hc⟩⟩

theorem mkdir (hcrash : fate.isCrash = true → crashing) (hpath : inside path) :
    Framed (call fate (.mkdir path)) inside crashing :=
  atomicTree hcrash fun _ _ ht => (mkdir_ok ht).2.sameOutside hpath

theorem remove (hcrash : fate.isCrash = true → crashing) (hpath : inside path) :
    Framed (call fate (.remove path)) inside crashing :=
  atomicTree hcrash fun _ _ ht => (remove_ok ht).sameOutside hpath

theorem mkdirAll (hcrash : fate.isCrash = true → crashing)
    (hpath : ∀ other, other <+: path → inside other) :
    Framed (call fate (.mkdirAll path)) inside crashing := by
  intro w
  have hgrows : ∀ t, w.tree.Grows t path → w.tree.SameOutside inside t := fun t ht other hother =>
    ht.get_of_not_above fun hpre => hother (hpath other hpre)
  exact wp_mkdirAll (fun t ht _ => hgrows t ht) (fun _ t _ ht => hgrows t ht)
    fun hc t ht => ⟨hgrows t ht, hcrash hc⟩

theorem removeAll (hcrash : fate.isCrash = true → crashing)
    (hpath : ∀ other, path <+: other → inside other) :
    Framed (call fate (.removeAll path)) inside crashing := by
  intro w
  have hrem : ∀ survives, w.tree.SameOutside inside (w.tree.removeAll path survives) :=
    fun survives other hother =>
      get_removeAll_of_not_below fun hpre => hother (hpath other hpre)
  exact wp_removeAll (hrem _) (fun _ survives _ => hrem survives)
    fun hc survives => ⟨hrem survives, hcrash hc⟩

/-- A framed run leaves the rest of the tree as it is. -/
theorem of_run (h : Framed x inside crashing) {exit : Exit α} {w' : World δ}
    (hrun : x w = (exit, w')) : w.tree.SameOutside inside w'.tree := by
  have hexit := wp_exit (h w)
  rw [hrun] at hexit
  rcases hexit with ⟨_, -, hpost⟩ | ⟨_, -, hpost⟩ | ⟨-, hcrash⟩
  · exact hpost
  · exact hpost
  · exact hcrash.1

end Framed

/-! ## Programs that do the same -/

/-- Whenever the first program ends well, the second one does the same. -/
def Follows (x y : Prog δ α) : Prop :=
  ∀ w a w', x w = (.ok a, w') → y w = (.ok a, w')

namespace Follows

variable {x y : Prog δ α}

theorem refl (x : Prog δ α) : Follows x x := fun _ _ _ h => h

theorem bind {f g : α → Prog δ β} (h : Follows x y) (hf : ∀ a, Follows (f a) (g a)) :
    Follows (x >>= f) (y >>= g) := by
  intro w b w' hrun
  obtain ⟨a, w₁, hx, hrest⟩ := bind_eq_ok hrun
  rw [bind_of_ok (h w a w₁ hx)]
  exact hf a w₁ b w' hrest

theorem ite {p : Prop} [Decidable p] {x' y' : Prog δ α} (h : Follows x y) (h' : Follows x' y') :
    Follows (if p then x else x') (if p then y else y') := by
  split
  · exact h
  · exact h'

theorem describe {text : String → String} (h : Follows x y) :
    Follows (x.context text) (y.context text) := by
  intro w a w' hrun
  rw [context, h w a w' (context_eq_ok hrun)]

/-- A program whose error ends the run. -/
theorem attempt_bind {f g : Except String α → Prog δ β} (h : Follows x y)
    (hf : ∀ a, Follows (f (.ok a)) (g (.ok a)))
    (herror : ∀ e w b w', f (.error e) w ≠ (.ok b, w')) :
    Follows (x.attempt >>= f) (y.attempt >>= g) := by
  intro w b w' hrun
  obtain ⟨r, w₁, hx, hrest⟩ := bind_eq_ok hrun
  rcases attempt_eq_ok hx with ⟨a, rfl, ha⟩ | ⟨e, rfl, -⟩
  · have hy : y.attempt w = (.ok (.ok a), w₁) := by rw [attempt, h w a w₁ ha]
    rw [bind_of_ok hy]
    exact hf a w₁ b w' hrest
  · exact absurd hrest (herror e w₁ b w')

theorem look {read : FileTree δ → Except String α} (fate : Fate δ) :
    Follows (inspect fate read) (inspect .done read) := by
  intro w a w' hrun
  cases fate with
  | done => exact hrun
  | fail damage => cases hrun
  | crash damage => cases hrun

theorem perform {operation : Operation δ} (fate : Fate δ) :
    Follows (call fate operation) (call .done operation) := by
  intro w a w' hrun
  cases fate with
  | done => exact hrun
  | fail damage => cases hrun
  | crash damage => cases hrun

end Follows

end Prog

end Faults
