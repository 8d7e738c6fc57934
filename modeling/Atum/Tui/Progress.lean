import Atum.Library.AssocList
import Mathlib.Data.List.Sort

/-!
# The order in which progress is delivered

`reportUnlocked` numbers the events and keeps the last one of each key.  The flush
goroutine and a terminal handoff take these as a batch under one mutex and hand the batch
to the renderer under another one.  A run is any interleaving of the critical sections.
Labels and times of the events are left out: nothing here depends on them.
-/

namespace Atum.Tui

open List Nat

inductive ProgressState
  | pending
  | running
  | complete
  | failed
  deriving DecidableEq

structure Event where
  phase : String
  id : String
  detail : String := ""
  state : ProgressState := .pending
  restart : Bool := false
  current : Int := 0
  total : Int := 0
  bytesCurrent : Int := 0
  bytesTotal : Int := 0

/-- The zero value is what the map of the last events has for a new key. -/
structure EventSignature where
  state : ProgressState := .pending
  detail : String := ""
  current : Int := 0
  total : Int := 0
  bytesCurrent : Int := 0
  bytesTotal : Int := 0
  deriving DecidableEq

structure QueuedProgress where
  sequence : Nat
  event : Event

/-- What `reportMu` guards.  `eventSequence` is a `uint64` of the source, and no session
reports so many events that it wraps. -/
structure Session where
  closed : Bool := false
  lastEvents : List (String × EventSignature) := []
  pendingEvents : List (String × QueuedProgress) := []
  eventSequence : Nat := 0

def Event.key (event : Event) : String := event.phase ++ "/" ++ event.id

def Event.signature (event : Event) : EventSignature where
  state := event.state
  detail := event.detail
  current := event.current
  total := event.total
  bytesCurrent := event.bytesCurrent
  bytesTotal := event.bytesTotal

variable (boundedDetail : String → String)

/-- `reportUnlocked` of an interactive session. -/
def Session.reportUnlocked (session : Session) (event : Event) : Session :=
  let event := { event with detail := boundedDetail event.detail }
  if session.closed then session
  else if (session.lastEvents.lookup event.key).getD {} = event.signature then session
  else
    let lastEvents := AssocList.put session.lastEvents event.key event.signature
    let pending := session.pendingEvents.lookup event.key
    let restart := event.restart ||
      pending.any (fun queued => queued.event.restart) && event.state = .running
    let terminalPending := pending.any fun queued =>
      queued.event.state = .complete || queued.event.state = .failed
    if !terminalPending || event.state ≠ .running || restart then
      let sequence := session.eventSequence + 1
      { session with
        lastEvents
        eventSequence := sequence
        pendingEvents := AssocList.put session.pendingEvents event.key
          { sequence, event := { event with restart } } }
    else { session with lastEvents }

/-- The batch that `sendPendingEvents` takes. -/
def Session.batch (session : Session) : List QueuedProgress :=
  (session.pendingEvents.map Prod.snd).insertionSort fun left right =>
    left.sequence ≤ right.sequence

/-! ## Interleavings -/

/-- The goroutines that call `sendPendingEvents`; there is one handoff at a time. -/
inductive Sender
  | flusher
  | handoff
  deriving DecidableEq

/-- A batch, and how many were taken before it. -/
structure Batch where
  taken : Nat
  events : List QueuedProgress

def Batch.numbers (batch : Batch) : List Nat := batch.events.map QueuedProgress.sequence

/-- The session, the batch that each sender holds between its two critical sections,
whether a handoff has the terminal, and what the renderer was given. -/
structure Delivery where
  session : Session := {}
  takes : Nat := 0
  held : Sender → Option Batch := fun _ => none
  screenHeld : Bool := false
  delivered : List Batch := []

/-- The critical sections. -/
inductive Step
  | report (event : Event)
  | finish
  | take (sender : Sender)
  | send (sender : Sender)
  | releaseTerminal
  | restoreTerminal

/-- A sender takes the pending events. -/
def Delivery.take (d : Delivery) (sender : Sender) : Delivery :=
  { d with
    session := { d.session with pendingEvents := [] }
    takes := d.takes + 1
    held := Function.update d.held sender
      (some { taken := d.takes, events := d.session.batch }) }

/-- One step, unless its goroutine is elsewhere or has to wait. -/
def Delivery.step (d : Delivery) : Step → Option Delivery
  | .report event =>
    some { d with session := d.session.reportUnlocked boundedDetail event }
  | .finish => some { d with session := { d.session with closed := true } }
  | .take sender =>
    if (d.held sender).isSome ∨ sender = .handoff ∧ d.screenHeld then none
    else
      some (if d.session.pendingEvents.isEmpty then d else d.take sender)
  | .send sender =>
    if d.screenHeld then none
    else (d.held sender).map fun batch =>
      { d with
        held := Function.update d.held sender none
        delivered := d.delivered ++ [batch] }
  | .releaseTerminal =>
    if d.screenHeld ∨ (d.held .handoff).isSome then none
    else some { d with screenHeld := true }
  | .restoreTerminal =>
    if d.screenHeld then some { d with screenHeld := false } else none

/-- A run of the steps. -/
def Delivery.run (d : Delivery) (steps : List Step) : Option Delivery :=
  steps.foldlM (Delivery.step boundedDetail) d

/-- The numbers that the renderer was given, in the order of delivery. -/
def Delivery.numbers (d : Delivery) : List Nat := d.delivered.flatMap Batch.numbers

/-! ## What a run keeps -/

variable {boundedDetail} {session : Session} {event : Event} {d next : Delivery}

/-- The numbers of the pending events. -/
def Session.numbers (session : Session) : List Nat :=
  session.pendingEvents.map fun entry => entry.2.sequence

/-- A report keeps what is pending, or queues an event under the next number. -/
theorem Session.reportUnlocked_cases (session : Session) (event : Event) :
    (session.reportUnlocked boundedDetail event).numbers = session.numbers ∧
      (session.reportUnlocked boundedDetail event).eventSequence = session.eventSequence ∨
    ∃ rest, rest.Sublist session.numbers ∧
      (session.reportUnlocked boundedDetail event).numbers = (session.eventSequence + 1) :: rest ∧
      (session.reportUnlocked boundedDetail event).eventSequence = session.eventSequence + 1 := by
  unfold Session.reportUnlocked
  dsimp only
  split
  · exact .inl ⟨rfl, rfl⟩
  split
  · exact .inl ⟨rfl, rfl⟩
  split
  · exact .inr ⟨_, filter_sublist.map _, rfl, rfl⟩
  · exact .inl ⟨rfl, rfl⟩

/-- The batch has the pending events in the order of their numbers. -/
theorem Session.perm_batch (session : Session) :
    (session.batch.map QueuedProgress.sequence).Perm session.numbers := by
  have hmap : session.numbers =
      (session.pendingEvents.map Prod.snd).map QueuedProgress.sequence := by
    simp [Session.numbers]
  rw [hmap]
  exact (perm_insertionSort _ _).map _

theorem Session.batch_increasing (h : session.numbers.Nodup) :
    (session.batch.map QueuedProgress.sequence).Pairwise (· < ·) := by
  have hle : session.batch.Pairwise fun left right => left.sequence ≤ right.sequence :=
    pairwise_insertionSort _ _
  have hne := session.perm_batch.nodup_iff.mpr h
  exact ((pairwise_map.mpr hle).and hne).imp fun hboth => lt_of_le_of_ne hboth.1 hboth.2

/-- A batch that was taken. -/
def Delivery.Known (d : Delivery) (batch : Batch) : Prop :=
  (∃ sender, d.held sender = some batch) ∨ batch ∈ d.delivered

/-- A later batch has larger numbers, and what is pending has larger ones still. -/
structure Delivery.Ordered (d : Delivery) : Prop where
  pending : d.session.numbers.Nodup
  latest : ∀ number ∈ d.session.numbers, number ≤ d.session.eventSequence
  taken : ∀ batch, d.Known batch → batch.taken < d.takes ∧ batch.numbers ≠ [] ∧
    batch.numbers.Pairwise (· < ·)
  numbers : ∀ batch, d.Known batch → ∀ x ∈ batch.numbers,
    x ≤ d.session.eventSequence ∧ ∀ y ∈ d.session.numbers, x < y
  apart : ∀ batch other, d.Known batch → d.Known other →
    (batch.taken = other.taken → batch = other) ∧
    (batch.taken < other.taken → ∀ x ∈ batch.numbers, ∀ y ∈ other.numbers, x < y)

/-- A step that takes no batch and queues no event. -/
theorem Delivery.Ordered.mono (h : d.Ordered) (hnums : next.session.numbers = d.session.numbers)
    (hlatest : next.session.eventSequence = d.session.eventSequence) (htakes : next.takes = d.takes)
    (hknown : ∀ batch, next.Known batch → d.Known batch) : next.Ordered where
  pending := hnums ▸ h.pending
  latest := by rw [hnums, hlatest]; exact h.latest
  taken batch hb := htakes ▸ h.taken batch (hknown batch hb)
  numbers batch hb := by rw [hnums, hlatest]; exact h.numbers batch (hknown batch hb)
  apart batch other hb ho := h.apart batch other (hknown batch hb) (hknown other ho)

theorem Delivery.Ordered.report (h : d.Ordered) (event : Event) :
    { d with session := d.session.reportUnlocked boundedDetail event }.Ordered := by
  rcases d.session.reportUnlocked_cases event with
    ⟨hnums, hlatest⟩ | ⟨rest, hrest, hnums, hlatest⟩
  · exact h.mono hnums hlatest rfl fun _ hb => hb
  have hle : ∀ number ∈ rest, number ≤ d.session.eventSequence := fun number hnum =>
    h.latest number (hrest.subset hnum)
  refine ⟨?_, ?_, h.taken, fun batch hb x hx => ?_, h.apart⟩
  · rw [hnums, nodup_cons]
    exact ⟨fun hmem => absurd (hle _ hmem) (by omega), h.pending.sublist hrest⟩
  · rw [hnums, hlatest, forall_mem_cons]
    exact ⟨le_rfl, fun number hnum => le_succ_of_le (hle number hnum)⟩
  · obtain ⟨hx, hlt⟩ := h.numbers batch hb x hx
    rw [hnums, hlatest, forall_mem_cons]
    exact ⟨le_succ_of_le hx, lt_succ_of_le hx, fun y hy => hlt y (hrest.subset hy)⟩

theorem Delivery.Ordered.take (h : d.Ordered) (sender : Sender)
    (hpending : d.session.pendingEvents ≠ []) : (d.take sender).Ordered := by
  have hnew : ∀ x ∈ Batch.numbers ⟨d.takes, d.session.batch⟩,
      x ∈ d.session.numbers := fun x hx => d.session.perm_batch.mem_iff.mp hx
  have hknown : ∀ batch, (d.take sender).Known batch →
      d.Known batch ∨ batch = ⟨d.takes, d.session.batch⟩ := by
    rintro batch (⟨other, hother⟩ | hdelivered)
    · by_cases heq : other = sender
      · subst heq
        exact .inr (by simpa [Delivery.take] using hother.symm)
      · exact .inl (.inl ⟨other, by simpa [Delivery.take, heq] using hother⟩)
    · exact .inl (.inr hdelivered)
  refine ⟨nodup_nil, by simp [Delivery.take, Session.numbers], fun batch hb => ?_,
    fun batch hb x hx => ⟨?_, by simp [Delivery.take, Session.numbers]⟩,
      fun batch other hb ho => ?_⟩
  · rcases hknown batch hb with hb | rfl
    · exact ⟨lt_succ_of_lt (h.taken batch hb).1, (h.taken batch hb).2⟩
    · refine ⟨lt_succ_self _, fun hnil => hpending ?_, Session.batch_increasing h.pending⟩
      have hperm := d.session.perm_batch
      rw [Batch.numbers] at hnil
      simpa [hnil, Session.numbers] using hperm
  · rcases hknown batch hb with hb | rfl
    · exact (h.numbers batch hb x hx).1
    · exact h.latest x (hnew x hx)
  rcases hknown batch hb with hb | rfl
  · rcases hknown other ho with ho | rfl
    · exact h.apart batch other hb ho
    · have hlt := (h.taken batch hb).1
      exact ⟨fun heq => absurd heq (Nat.ne_of_lt hlt),
        fun _ x hx y hy => (h.numbers batch hb x hx).2 y (hnew y hy)⟩
  rcases hknown other ho with ho | rfl
  · have hlt := (h.taken other ho).1
    exact ⟨fun heq => absurd heq (ne_of_gt hlt), fun hgt => absurd hgt (by simpa using hlt.le)⟩
  · exact ⟨fun _ => rfl, fun hlt => absurd hlt (lt_irrefl _)⟩

/-- Every step keeps the order. -/
theorem Delivery.Ordered.step (h : d.Ordered) {step : Step}
    (hstep : d.step boundedDetail step = some next) : next.Ordered := by
  cases step with
  | report event =>
    cases hstep
    exact h.report event
  | finish =>
    cases hstep
    exact h.mono rfl rfl rfl fun _ hb => hb
  | take sender =>
    simp only [Delivery.step] at hstep
    split at hstep
    · cases hstep
    cases hstep
    split
    · exact h
    · next hpending => exact h.take sender (by simpa using hpending)
  | send sender =>
    simp only [Delivery.step] at hstep
    split at hstep
    · cases hstep
    obtain ⟨batch, hbatch, rfl⟩ := Option.map_eq_some_iff.mp hstep
    refine h.mono rfl rfl rfl ?_
    rintro other (⟨holder, hholder⟩ | hdelivered)
    · by_cases heq : holder = sender
      · simp [heq] at hholder
      · exact .inl ⟨holder, by simpa [heq] using hholder⟩
    · rcases mem_append.mp hdelivered with hbefore | hnow
      · exact .inr hbefore
      · exact .inl ⟨sender, mem_singleton.mp hnow ▸ hbatch⟩
  | releaseTerminal =>
    simp only [Delivery.step] at hstep
    split at hstep
    · cases hstep
    · cases hstep
      exact h.mono rfl rfl rfl fun _ hb => hb
  | restoreTerminal =>
    simp only [Delivery.step] at hstep
    split at hstep
    · cases hstep
      exact h.mono rfl rfl rfl fun _ hb => hb
    · cases hstep

theorem Delivery.Ordered.run {steps : List Step} : ∀ {d : Delivery}, d.Ordered →
      d.run boundedDetail steps = some next → next.Ordered := by
  induction steps with
  | nil =>
    intro d h hrun
    cases hrun
    exact h
  | cons step steps ih =>
    intro d h hrun
    obtain ⟨between, hstep, hrun⟩ := Option.bind_eq_some_iff.mp hrun
    exact ih (h.step hstep) hrun

theorem Delivery.ordered_start : ({} : Delivery).Ordered where
  pending := nodup_nil
  latest := by simp [Session.numbers]
  taken := by simp [Delivery.Known]
  numbers := by simp [Delivery.Known]
  apart := by simp [Delivery.Known]

/-! ## The order of delivery -/

/-- The numbers that the renderer is given increase exactly when the batches come in the
order in which they were taken. -/
theorem numbers_increasing_iff {steps : List Step}
    (hrun : ({} : Delivery).run boundedDetail steps = some d) :
    d.numbers.Pairwise (· < ·) ↔ (d.delivered.map Batch.taken).Pairwise (· < ·) := by
  have h : d.Ordered := Delivery.ordered_start.run hrun
  have hknown : ∀ batch ∈ d.delivered, d.Known batch := fun batch hb => .inr hb
  rw [Delivery.numbers, pairwise_flatMap, pairwise_map]
  refine (and_iff_right fun batch hb => (h.taken batch (hknown batch hb)).2.2).trans ?_
  refine List.Pairwise.iff_of_mem fun {batch other} hb ho => ?_
  obtain ⟨hsame, hbefore⟩ := h.apart batch other (hknown batch hb) (hknown other ho)
  refine ⟨fun hlt => ?_, hbefore⟩
  obtain ⟨x, hx⟩ := exists_mem_of_ne_nil _ (h.taken batch (hknown batch hb)).2.1
  obtain ⟨y, hy⟩ := exists_mem_of_ne_nil _ (h.taken other (hknown other ho)).2.1
  have hxy := hlt x hx y hy
  rcases lt_trichotomy batch.taken other.taken with horder | horder | horder
  · exact horder
  · obtain rfl := hsame horder
    exact absurd (hlt x hx x hx) (lt_irrefl x)
  · have hyx := (h.apart other batch (hknown other ho) (hknown batch hb)).2 horder y hy x hx
    exact absurd hxy hyx.asymm

/-- The step sends a batch, and since this was taken another one was taken and sent. -/
def Delivery.Overtaken (d : Delivery) : Step → Prop
  | .send sender => ∃ batch ∈ d.held sender, ∃ sent ∈ d.delivered, batch.taken ≤ sent.taken
  | _ => False

instance (d : Delivery) : DecidablePred d.Overtaken
  | .send _ => inferInstanceAs (Decidable (∃ _ ∈ _, _))
  | .report _ | .finish | .take _ | .releaseTerminal | .restoreTerminal => .isFalse id

/-- In the schedule a batch is taken and sent between the take and the send of another
one. -/
def Overtakes (boundedDetail : String → String) (d : Delivery) : List Step → Prop
  | [] => False
  | step :: rest => d.Overtaken step ∨
    ∃ next ∈ d.step boundedDetail step, Overtakes boundedDetail next rest

instance decidableOvertakes (boundedDetail : String → String) :
    ∀ d, DecidablePred (Overtakes boundedDetail d)
  | _, [] => .isFalse id
  | d, step :: rest =>
    have := fun next => decidableOvertakes boundedDetail next rest
    inferInstanceAs (Decidable (d.Overtaken step ∨ ∃ next ∈ d.step boundedDetail step, _))

theorem taken_increasing_step {step : Step} (hstep : d.step boundedDetail step = some next) :
    (next.delivered.map Batch.taken).Pairwise (· < ·) ↔
      (d.delivered.map Batch.taken).Pairwise (· < ·) ∧ ¬d.Overtaken step := by
  cases step with
  | send sender =>
    simp only [Delivery.step] at hstep
    split at hstep
    · cases hstep
    obtain ⟨batch, hbatch, rfl⟩ := Option.map_eq_some_iff.mp hstep
    simp [pairwise_append, Delivery.Overtaken, hbatch]
  | take sender =>
    simp only [Delivery.step] at hstep
    split at hstep
    · cases hstep
    cases hstep
    split
    · simp [Delivery.Overtaken]
    · simp [Delivery.take, Delivery.Overtaken]
  | report | finish =>
    cases hstep
    simp [Delivery.Overtaken]
  | releaseTerminal | restoreTerminal =>
    simp only [Delivery.step] at hstep
    split at hstep <;> cases hstep
    simp [Delivery.Overtaken]

theorem taken_increasing_iff {steps : List Step} : ∀ {d : Delivery},
    d.run boundedDetail steps = some next →
      ((next.delivered.map Batch.taken).Pairwise (· < ·) ↔
        (d.delivered.map Batch.taken).Pairwise (· < ·) ∧ ¬Overtakes boundedDetail d steps) := by
  induction steps with
  | nil =>
    intro d hrun
    cases hrun
    simp [Overtakes]
  | cons step steps ih =>
    intro d hrun
    obtain ⟨between, hstep, hrun⟩ := Option.bind_eq_some_iff.mp hrun
    rw [ih hrun, taken_increasing_step hstep, and_assoc, ← not_or]
    simp [Overtakes, hstep]

/-- In every run the numbers that the renderer is given increase exactly when no batch is
taken and sent between the take and the send of another one. -/
theorem delivered_increasing_iff {steps : List Step}
    (hrun : ({} : Delivery).run boundedDetail steps = some d) :
    d.numbers.Pairwise (· < ·) ↔ ¬Overtakes boundedDetail {} steps := by
  rw [numbers_increasing_iff hrun, taken_increasing_iff hrun]
  simp

/-- The start of an update. -/
def sampleEvent (id : String) : Event :=
  { phase := "updates", id, state := .running, restart := true }

/-- The flusher takes a batch, and a handoff takes and sends the next one before the
flusher comes to its send. -/
def overtaking : List Step :=
  [.report (sampleEvent "a"), .take .flusher, .report (sampleEvent "b"), .take .handoff,
    .send .handoff, .send .flusher]

theorem delivered_out_of_order :
    (({} : Delivery).run id overtaking).map Delivery.numbers = some [2, 1] ∧
      ¬[2, 1].Pairwise (· < ·) := by
  decide +kernel

/-- The flusher takes and sends a batch, and then a handoff does. -/
def inTurn : List Step :=
  [.report (sampleEvent "a"), .take .flusher, .send .flusher, .report (sampleEvent "b"),
    .take .handoff, .send .handoff]

theorem delivered_increasing_iff_flushed :
    ∃ d, ({} : Delivery).run id inTurn = some d ∧ d.numbers = [1, 2] ∧
      d.numbers.Pairwise (· < ·) := by
  refine ⟨_, rfl, by decide +kernel, ?_⟩
  refine (@delivered_increasing_iff id _ inTurn rfl).mpr ?_
  decide +kernel

end Atum.Tui
