import Atum.Infra.Forwarding

/-!
# What interrupted installs leave behind

A bridge is stray on a host when it has a rule and the state file does not name
it: no later action will look for that rule.  An install keeps every other
bridge as it was, stray or not.  Its own bridge is stray afterwards exactly when
the install was stopped with a rule in place and the file not yet written.  So
what an uninstall leaves behind is decided, for each bridge, by the last install
that used it.
-/

namespace Atum.Infra

open Atum.Go Stepwise Stepwise.Prog

/-! ## The rules of a bridge -/

/-- Some rule lets the bridge through. -/
def Host.Holds (host : Host) (bridge : String) : Prop :=
  ∃ rule ∈ host.rules, rule.bridge = bridge

variable {bridge : String} {rule : Rule}

theorem mem_forwardingRules : rule ∈ forwardingRules bridge ↔ rule.bridge = bridge := by
  obtain ⟨permanent, direction, other⟩ := rule
  cases permanent <;> cases direction <;> simp [forwardingRules]

theorem ne_of_mem_forwardingRules {kept : Rule} {other : String} (hother : other ≠ bridge)
    (hrule : rule ∈ forwardingRules bridge) (hkept : kept.bridge = other) : kept ≠ rule := by
  intro heq
  exact hother (hkept.symm.trans (heq ▸ mem_forwardingRules.mp hrule))

theorem nodup_forwardingRules (bridge : String) : (forwardingRules bridge).Nodup := by
  simp [forwardingRules]

/-- A change that keeps the state file. -/
def SameFile (s t : Host) : Prop := t.stateFile = s.stateFile

/-- A change that keeps the rules of a bridge. -/
def SameRules (bridge : String) (s t : Host) : Prop :=
  ∀ rule, rule.bridge = bridge → (rule ∈ t.rules ↔ rule ∈ s.rules)

theorem SameFile.refl (s : Host) : SameFile s s := rfl

variable {s t u : Host}

theorem SameFile.trans (h : SameFile s t) (h' : SameFile t u) : SameFile s u :=
  Eq.trans h' h

theorem SameRules.refl (s : Host) : SameRules bridge s s := fun _ _ => Iff.rfl

theorem SameRules.trans (h : SameRules bridge s t)
    (h' : SameRules bridge t u) : SameRules bridge s u := fun rule hrule =>
  (h' rule hrule).trans (h rule hrule)

theorem SameRules.holds_iff (h : SameRules bridge s t) : t.Holds bridge ↔ s.Holds bridge := by
  constructor <;> intro ⟨rule, hrule, hbridge⟩
  · exact ⟨rule, (h rule hbridge).mp hrule, hbridge⟩
  · exact ⟨rule, (h rule hbridge).mpr hrule, hbridge⟩

/-! ## Removing and adding the rules of a bridge -/

theorem removeForwardingRule_eq : removeForwardingRule =
    conditional (fun rule (host : Host) => decide (rule ∈ host.rules))
      (fun rule host => host.remove rule) := by
  funext rule host
  rw [conditional_run]
  by_cases h : rule ∈ host.rules <;>
    simp [removeForwardingRule, forwardingRule, observe, operate, bind, h]

theorem forwardRule_install_eq : forwardRule .install =
    conditional (fun rule (host : Host) => decide (rule ∉ host.rules))
      (fun rule host => host.add rule) := by
  funext rule host
  rw [conditional_run]
  by_cases h : rule ∈ host.rules <;>
    simp [forwardRule, forwardingRule, observe, operate, bind, h]

theorem independent_remove : Independent (fun rule (host : Host) => decide (rule ∈ host.rules))
    (fun rule host => host.remove rule) := by
  intro rule other host hother
  simp [hother]

theorem independent_add : Independent (fun rule (host : Host) => decide (rule ∉ host.rules))
    (fun rule host => host.add rule) := by
  intro rule other host hother
  simp [hother]

section

variable {bridge other : String} {host : Host}

theorem removeForwardingRules_ok : (removeForwardingRules bridge host).1 = .ok () := by
  exact all_conditional_ok

theorem length_removeForwardingRules : (removeForwardingRules bridge host).2.length =
    4 + (forwardingRules bridge).countP (· ∈ host.rules) := by
  exact independent_remove.length_all (nodup_forwardingRules bridge)

theorem removeForwardingRules_sameFile : Moves SameFile (removeForwardingRules bridge) := by
  rw [removeForwardingRules, removeForwardingRule_eq]
  exact Moves.all .refl .trans fun rule _ => Moves.conditional .refl fun s => rfl

theorem removeForwardingRules_sameRules (hother : other ≠ bridge) :
    Moves (SameRules other) (removeForwardingRules bridge) := by
  rw [removeForwardingRules, removeForwardingRule_eq]
  refine Moves.all .refl .trans fun rule hrule => Moves.conditional .refl fun s kept hkept => ?_
  simp [ne_of_mem_forwardingRules hother hrule hkept]

/-- A removal that comes to its end leaves no rule of its bridge. -/
theorem not_holds_after_removeForwardingRules :
    ¬((removeForwardingRules bridge).after host).Holds bridge := by
  intro ⟨rule, hrule, hbridge⟩
  have hgone := independent_remove.not_needed_after_all (s := host)
    (fun rule s => by simp) (nodup_forwardingRules bridge) (mem_forwardingRules.mpr hbridge)
  exact of_decide_eq_false hgone hrule

/-- The loop of an install over the four rules of its bridge. -/
def addForwardingRules (bridge : String) : Prog Host Unit :=
  all (forwardRule .install) (forwardingRules bridge)

theorem addForwardingRules_ok : (addForwardingRules bridge host).1 = .ok () := by
  rw [addForwardingRules, forwardRule_install_eq]
  exact all_conditional_ok

theorem length_addForwardingRules : (addForwardingRules bridge host).2.length =
    4 + (forwardingRules bridge).countP (· ∉ host.rules) := by
  rw [addForwardingRules, forwardRule_install_eq]
  exact independent_add.length_all (nodup_forwardingRules bridge)

theorem addForwardingRules_sameFile : Moves SameFile (addForwardingRules bridge) := by
  rw [addForwardingRules, forwardRule_install_eq]
  exact Moves.all .refl .trans fun rule _ => Moves.conditional .refl fun s => rfl

theorem addForwardingRules_sameRules (hother : other ≠ bridge) :
    Moves (SameRules other) (addForwardingRules bridge) := by
  rw [addForwardingRules, forwardRule_install_eq]
  refine Moves.all .refl .trans fun rule hrule => Moves.conditional .refl fun s kept hkept => ?_
  simp [ne_of_mem_forwardingRules hother hrule hkept]

/-- A change that loses no rule. -/
def Grows (s t : Host) : Prop := ∀ rule ∈ s.rules, rule ∈ t.rules

theorem Grows.refl (s : Host) : Grows s s := fun _ h => h

theorem Grows.trans (h : Grows s t) (h' : Grows t u) : Grows s u :=
  fun rule hrule => h' rule (h rule hrule)

theorem Grows.holds (h : Grows s t) (hholds : s.Holds bridge) : t.Holds bridge := by
  obtain ⟨rule, hrule, hbridge⟩ := hholds
  exact ⟨rule, h rule hrule, hbridge⟩

theorem grows_all_install (rules : List Rule) : Moves Grows (all (forwardRule .install) rules) := by
  rw [forwardRule_install_eq]
  refine Moves.all .refl .trans fun rule _ => Moves.conditional .refl fun s kept hkept => ?_
  exact Host.mem_add.mpr (.inr hkept)

/-- The first rule is in place after the first question and the first command. -/
theorem holds_stopped_addForwardingRules (count : Nat) :
    ((addForwardingRules bridge).stopped count host).Holds bridge ↔
      host.Holds bridge ∨ 2 ≤ count := by
  by_cases hholds : host.Holds bridge
  · have hgrows := (grows_all_install (forwardingRules bridge)).stopped .refl count host
    exact iff_of_true (hgrows.holds hholds) (.inl hholds)
  let first : Rule := ⟨true, .ingress, bridge⟩
  have hfirst : first ∉ host.rules := fun hmem => hholds ⟨first, hmem, rfl⟩
  have hrun : forwardRule .install first host = (.ok (), [host, host.add first]) := by
    rw [forwardRule_install_eq, conditional_run, if_pos (decide_eq_true hfirst)]
  have hrules : forwardingRules bridge = first :: (forwardingRules bridge).tail := rfl
  rw [addForwardingRules, hrules, all]
  by_cases hcount : 2 ≤ count
  · obtain ⟨rest, rfl⟩ := Nat.exists_eq_add_of_le hcount
    have hstop := stopped_bind_add (f := fun _ => all (forwardRule .install)
      (forwardingRules bridge).tail) (congrArg Prod.fst hrun) rest
    rw [hrun] at hstop
    refine iff_of_true ?_ (.inr hcount)
    rw [show 2 + rest = [host, host.add first].length + rest from rfl, hstop, Prog.after, hrun]
    refine ((grows_all_install _).stopped .refl rest _).holds ?_
    exact ⟨first, Host.mem_add.mpr (.inl rfl), rfl⟩
  have hle : count ≤ (forwardRule .install first host).2.length := by
    rw [hrun, List.length_cons]
    omega
  have hhost : (forwardRule .install first).stopped count host = host := by
    obtain rfl | rfl : count = 0 ∨ count = 1 := by omega
    · rfl
    · rfl
  rw [stopped_bind_of_le hle, hhost]
  simp [hholds, hcount]

end

/-! ## The state file -/

section

variable {host : Host}

/-- The bridge that the state file names. -/
def Host.recorded (host : Host) : Option String :=
  match readForwardingState host with
  | .ok (bridge, true) => some bridge
  | _ => none

theorem bridgePattern_ne_empty (h : bridgePattern bridge = true) : bridge ≠ "" := by
  rintro rfl
  exact absurd h (by decide)

/-- A state file that can be read names a bridge, unless it is absent. -/
theorem readForwardingState_eq_ok {saved : String} {found : Bool}
    (h : readForwardingState host = .ok (saved, found)) :
    (host.stateFile = none ∧ host.recorded = none ∧ saved = "" ∧ found = false) ∨
      (host.stateFile ≠ none ∧ host.recorded = some saved ∧ saved ≠ "" ∧ found = true) := by
  have hread := h
  rw [readForwardingState] at h
  cases hfile : host.stateFile with
  | none =>
    simp only [hfile] at h
    cases h
    exact .inl ⟨rfl, by rw [Host.recorded, hread], rfl, rfl⟩
  | some data =>
    simp only [hfile] at h
    split at h
    · cases h
    split at h
    · cases h
    rename_i hvalid
    cases h
    simp only [Bool.or_eq_true, Bool.not_eq_true', not_or, Bool.not_eq_false] at hvalid
    exact .inr ⟨by simp, by rw [Host.recorded, hread], bridgePattern_ne_empty hvalid.1, rfl⟩

theorem ascii_of_bridgeCharacter {c : Char} (h : bridgeCharacter c = true) : c.val ≤ 127 := by
  simp only [bridgeCharacter, Char.isAlphanum, isAlpha_eq, Char.isDigit, Bool.or_eq_true,
    Bool.and_eq_true, decide_eq_true_eq] at h
  obtain (((((h | h) | h) | rfl) | rfl) | rfl) | rfl := h
  · exact UInt32.le_trans h.2 (by decide)
  · exact UInt32.le_trans h.2 (by decide)
  · exact UInt32.le_trans h.2 (by decide)
  all_goals decide

/-- The file that an install of a bridge writes is read back as that bridge. -/
theorem readForwardingState_published (h : bridgePattern bridge = true)
    (host : Host) : readForwardingState { host with stateFile := some (bridge ++ "\n") } =
      .ok (bridge, true) := by
  have hpattern := h
  simp only [bridgePattern, Bool.and_eq_true, List.all_eq_true, decide_eq_true_eq] at h
  obtain ⟨⟨hchars, -⟩, hlength⟩ := h
  have hlen : len bridge ≤ 15 := by
    rw [len_of_ascii fun c hc => ascii_of_bridgeCharacter (hchars c hc)]
    exact hlength
  have hshort : ¬bridgeStateLimit < len (bridge ++ "\n") := by
    have hnewline : "\n".utf8ByteSize = 1 := rfl
    rw [len, String.utf8ByteSize_append, bridgeStateLimit]
    rw [len] at hlen
    omega
  have hline : contains bridge "\n" = false := by
    rw [Bool.eq_false_iff, ne_eq, contains_iff]
    intro hinfix
    have hmem : '\n' ∈ bridge.toList := hinfix.subset (List.mem_singleton_self _)
    exact absurd (hchars _ hmem) (by decide)
  simp [readForwardingState, if_neg hshort, trimSuffix_append, hpattern, hline]

end

/-! ## An install -/

/-- The service passes the checks that every action makes. -/
structure Service.Ready (service : Service) : Prop where
  runner : service.runner = true
  firewall : service.firewallBin ≠ ""
  root : service.euid = 0
  running : service.firewalldRunning = true

/-- An install of the service works on the bridge. -/
structure Service.Uses (service : Service) (bridge : String) : Prop extends service.Ready where
  discovers : service.discoverBridge = .ok bridge

theorem bridgePattern_of_discoverBridge {service : Service}
    (h : service.discoverBridge = .ok bridge) : bridgePattern bridge = true := by
  unfold Service.discoverBridge at h
  split at h
  · cases h
  split at h
  · cases h
  split at h
  · cases h
  split at h
  · rename_i name hfound
    cases h
    obtain ⟨line, -, hline⟩ := List.exists_of_findSome?_eq_some hfound
    unfold bridgeOfLine at hline
    split at hline
    · split at hline
      · rename_i hname
        cases hline
        exact (Bool.and_eq_true_iff.mp hname).2
      · cases hline
    · cases hline
  · cases h

/-- The bridge that an install has to clear first. -/
def clearRecorded (recorded : Option String) (bridge : String) : Prog Host Unit :=
  match recorded with
  | none => return ()
  | some saved => if saved = bridge then return () else removeForwardingRules saved

/-- What an install does after its checks. -/
def installBridge (recorded : Option String) (bridge : String) : Prog Host Unit := do
  clearRecorded recorded bridge
  addForwardingRules bridge
  atomicHostFile (bridge ++ "\n")

section

variable {service : Service} {bridge : String} {host : Host} {saved : String} {found : Bool}

theorem clearSavedBridge_eq (hread : readForwardingState host = .ok (saved, found)) :
    clearSavedBridge ⟨.install, saved, true⟩ bridge = clearRecorded host.recorded bridge := by
  unfold clearSavedBridge
  obtain ⟨-, hrec, rfl, -⟩ | ⟨-, hrec, hne, -⟩ := readForwardingState_eq_ok hread
  · simp [hrec, clearRecorded]
  · by_cases hsame : saved = bridge
    · simp [hrec, clearRecorded, hsame]
    · simp [hrec, clearRecorded, hsame, hne]

/-- An action fails a check and has changed nothing, or it passes its checks, one
of which asks firewalld for its state, and goes to work. -/
theorem forwarding_cases (service : Service) (plan : ForwardingPlan) (host : Host) :
    (∃ e states, service.forwarding plan host = (.error e, states) ∧ (∀ t ∈ states, t = host) ∧
      ¬(service.Ready ∧ plan.valid = true ∧ ∃ bridge, service.planned plan = .ok bridge)) ∨
    (∃ bridge, service.Ready ∧ service.planned plan = .ok bridge ∧
      service.forwarding plan host = (aside >>= fun _ => applyForwarding plan bridge) host) := by
  unfold Service.forwarding
  cases hrunner : service.runner with
  | false =>
    refine .inl ⟨_, _, check_bind_false rfl, by simp, fun h => ?_⟩
    exact absurd h.1.runner (by simp [hrunner])
  | true =>
  rw [check_bind_true rfl]
  cases hvalid : plan.valid with
  | false => exact .inl ⟨_, _, check_bind_false rfl, by simp, by simp⟩
  | true =>
  rw [check_bind_true rfl]
  by_cases hfirewall : service.firewallBin = ""
  · refine .inl ⟨_, _, check_bind_false (by simpa using hfirewall), by simp, fun h => ?_⟩
    exact h.1.firewall hfirewall
  rw [check_bind_true (by simpa using hfirewall)]
  by_cases hroot : service.euid = 0
  swap
  · refine .inl ⟨_, _, check_bind_false (by simpa using hroot), by simp, fun h => ?_⟩
    exact hroot h.1.root
  rw [check_bind_true (by simpa using hroot)]
  have hobserve : (observe fun _ : Host => service.firewalldRunning) host =
      (.ok service.firewalldRunning, [host]) := rfl
  rw [bind_ok hobserve]
  cases hrunning : service.firewalldRunning with
  | false =>
    rw [check_bind_false rfl]
    refine .inl ⟨_, _, rfl, by simp, fun h => ?_⟩
    exact absurd h.1.running (by simp [hrunning])
  | true =>
  rw [check_bind_true rfl]
  cases hbridge : service.planned plan with
  | error e =>
    rw [given_bind_error]
    exact .inl ⟨_, _, rfl, by simp, by simp⟩
  | ok bridge =>
    exact .inr ⟨bridge, ⟨hrunner, hfirewall, hroot, hrunning⟩, rfl, rfl⟩

theorem planForwarding_eq_ok {word : String} {action : ForwardingAction} {plan : ForwardingPlan}
    (hword : selectedAction word = .ok action) (h : planForwarding word host = .ok plan) :
    ∃ saved found, readForwardingState host = .ok (saved, found) ∧
      plan = ⟨action, saved, action = .install || !found⟩ := by
  cases hread : readForwardingState host with
  | error e => simp [planForwarding, hword, hread, bind, Except.bind] at h
  | ok state =>
    simp only [planForwarding, hword, hread, bind, Except.bind, pure, Except.pure] at h
    cases h
    exact ⟨_, _, rfl, rfl⟩

theorem run_install (huses : service.Uses bridge)
    (hread : readForwardingState host = .ok (saved, found)) :
    service.run "install" host = (aside >>= fun _ => installBridge host.recorded bridge) host := by
  have hplan : planForwarding "install" host = .ok ⟨.install, saved, true⟩ := by
    simp [planForwarding, selectedAction, hread, bind, Except.bind, pure, Except.pure]
  have hplanned : service.planned ⟨.install, saved, true⟩ = .ok bridge := huses.discovers
  rw [Service.run, inspect_bind_ok hplan]
  obtain ⟨e, states, -, -, hfailed⟩ | ⟨found, -, hfound, hrun⟩ :=
    forwarding_cases service ⟨.install, saved, true⟩ host
  · exact absurd ⟨huses.toReady, rfl, bridge, hplanned⟩ hfailed
  rw [hplanned, Except.ok.injEq] at hfound
  subst hfound
  rw [hrun, applyForwarding, clearSavedBridge_eq hread]
  rfl

/-- An install that finds no bridge changes nothing. -/
theorem run_install_idle (h : ∀ bridge, ¬service.Uses bridge) :
    ∀ t ∈ (service.run "install" host).2, t = host := by
  cases hplan : planForwarding "install" host with
  | error e =>
    rw [Service.run, inspect_bind_error hplan]
    simp
  | ok plan =>
    rw [Service.run, inspect_bind_ok hplan]
    obtain ⟨e, states, hrun, hstates, -⟩ | ⟨bridge, hready, hbridge, -⟩ :=
      forwarding_cases service plan host
    · rw [hrun]
      exact hstates
    · obtain ⟨saved, found, -, rfl⟩ := planForwarding_eq_ok rfl hplan
      exact absurd ⟨hready, hbridge⟩ (h bridge)

/-- An install that cannot read the state file changes nothing. -/
theorem run_install_unreadable {e : String} (h : readForwardingState host = .error e) :
    (service.run "install" host).2 = [] := by
  have hplan : planForwarding "install" host = .error e := by
    simp [planForwarding, selectedAction, h, bind, Except.bind]
  rw [Service.run, inspect_bind_error hplan]

end

/-! ## The points at which an install can be stopped -/

/-- How many operations an install needs to clear the recorded bridge. -/
def clearing (host : Host) (bridge : String) : Nat :=
  match host.recorded with
  | none => 0
  | some saved =>
    if saved = bridge then 0 else 4 + (forwardingRules saved).countP (· ∈ host.rules)

/-- How many operations an install needs to add the rules of its bridge. -/
def adding (host : Host) (bridge : String) : Nat :=
  4 + (forwardingRules bridge).countP (· ∉ host.rules)

section

variable {recorded : Option String} {bridge other : String} {host : Host}

theorem clearRecorded_ok : (clearRecorded recorded bridge host).1 = .ok () := by
  cases recorded with
  | none => rfl
  | some saved =>
    rw [clearRecorded]
    split
    · rfl
    · exact removeForwardingRules_ok

theorem length_clearRecorded :
    (clearRecorded host.recorded bridge host).2.length = clearing host bridge := by
  unfold clearing clearRecorded
  cases host.recorded with
  | none => rfl
  | some saved =>
    simp only
    split
    · rfl
    · exact length_removeForwardingRules

theorem clearRecorded_sameFile : Moves SameFile (clearRecorded recorded bridge) := by
  cases recorded with
  | none => exact Moves.ret ()
  | some saved =>
    rw [clearRecorded]
    split
    · exact Moves.ret ()
    · exact removeForwardingRules_sameFile

theorem clearRecorded_sameRules (h : recorded ≠ some other ∨ other = bridge) :
    Moves (SameRules other) (clearRecorded recorded bridge) := by
  cases recorded with
  | none => exact Moves.ret ()
  | some saved =>
    rw [clearRecorded]
    split
    · exact Moves.ret ()
    rename_i hsaved
    refine removeForwardingRules_sameRules ?_
    obtain hother | rfl := h
    · exact fun heq => hother (heq ▸ rfl)
    · exact fun heq => hsaved heq.symm

variable {saved : String}

theorem not_holds_after_clearRecorded (h : saved ≠ bridge) :
    ¬((clearRecorded (some saved) bridge).after host).Holds saved := by
  rw [clearRecorded, if_neg h]
  exact not_holds_after_removeForwardingRules

theorem atomicHostFile_states (data : String) (host : Host) :
    (atomicHostFile data host).2 = [host, host, host, host,
      { host with stateFile := some data }, { host with stateFile := some data }] := rfl

/-- The file is written by the fifth operation. -/
theorem stopped_atomicHostFile (data : String) (count : Nat) :
    (atomicHostFile data).stopped count host =
      if count < 5 then host else { host with stateFile := some data } := by
  rw [stopped, atomicHostFile_states]
  rcases count with _ | _ | _ | _ | _ | _ | rest
  iterate 6 rfl
  rw [List.take_of_length_le (by simp)]
  rfl

theorem installBridge_sameRules (hother : other ≠ bridge) (hrec : recorded ≠ some other) :
    Moves (SameRules other) (installBridge recorded bridge) := by
  refine Moves.bind .refl .trans (clearRecorded_sameRules (.inl hrec)) fun _ => ?_
  refine Moves.bind .refl .trans (addForwardingRules_sameRules hother) fun _ s t ht => ?_
  have hrules : t.rules = s.rules := by
    rw [atomicHostFile_states] at ht
    simp only [List.mem_cons, List.not_mem_nil, or_false, or_self] at ht
    obtain rfl | rfl | rfl | rfl | rfl := ht <;> rfl
  intro rule _
  rw [hrules]

/-- Clearing the recorded bridge does not change how many rules are to be added. -/
theorem length_addForwardingRules_cleared (host : Host) (bridge : String) :
    (addForwardingRules bridge ((clearRecorded host.recorded bridge).after host)).2.length =
      adding host bridge := by
  have hsame : SameRules bridge host ((clearRecorded host.recorded bridge).after host) :=
    (clearRecorded_sameRules (.inr rfl)).after .refl host
  rw [length_addForwardingRules]
  congr 1
  refine List.countP_congr fun rule hrule => ?_
  rw [decide_eq_true_iff, decide_eq_true_iff, hsame rule (mem_forwardingRules.mp hrule)]

theorem length_installBridge (host : Host) (bridge : String) :
    (installBridge host.recorded bridge host).2.length =
      clearing host bridge + (adding host bridge + 6) := by
  rw [installBridge, length_bind clearRecorded_ok, length_clearRecorded,
    length_bind addForwardingRules_ok, length_addForwardingRules_cleared, atomicHostFile_states]
  rfl

/-- An install is stopped while it clears the recorded bridge, while it adds the
rules of its own, or while it writes the state file. -/
theorem stopped_installBridge_cases (host : Host) (bridge : String) (count : Nat) :
    (count ≤ clearing host bridge ∧ (installBridge host.recorded bridge).stopped count host =
      (clearRecorded host.recorded bridge).stopped count host) ∨
    (∃ j, count = clearing host bridge + j ∧ j ≤ adding host bridge ∧
      (installBridge host.recorded bridge).stopped count host =
        (addForwardingRules bridge).stopped j ((clearRecorded host.recorded bridge).after host)) ∨
    (∃ j, count = clearing host bridge + (adding host bridge + j) ∧
      (installBridge host.recorded bridge).stopped count host =
        (atomicHostFile (bridge ++ "\n")).stopped j ((addForwardingRules bridge).after
          ((clearRecorded host.recorded bridge).after host))) := by
  have hclearing : (clearRecorded host.recorded bridge host).2.length = clearing host bridge :=
    length_clearRecorded
  set cleared := (clearRecorded host.recorded bridge).after host
  have hadding : (addForwardingRules bridge cleared).2.length = adding host bridge :=
    length_addForwardingRules_cleared host bridge
  obtain hle | hgt := le_or_gt count (clearing host bridge)
  · exact .inl ⟨hle, stopped_bind_of_le (hclearing ▸ hle)⟩
  obtain ⟨rest, rfl⟩ := Nat.exists_eq_add_of_lt hgt
  right
  have hfirst : ∀ j, (installBridge host.recorded bridge).stopped (clearing host bridge + j) host =
      ((addForwardingRules bridge) >>= fun _ => atomicHostFile (bridge ++ "\n")).stopped
        j cleared := by
    intro j
    rw [← hclearing, installBridge, stopped_bind_add clearRecorded_ok]
  obtain hle | hgt := le_or_gt (rest + 1) (adding host bridge)
  · refine .inl ⟨rest + 1, rfl, hle, ?_⟩
    rw [Nat.add_assoc, hfirst, stopped_bind_of_le (hadding ▸ hle)]
  obtain ⟨last, hlast⟩ := Nat.exists_eq_add_of_lt hgt
  refine .inr ⟨last + 1, by omega, ?_⟩
  rw [Nat.add_assoc, hfirst, hlast, Nat.add_assoc, ← hadding,
    stopped_bind_add addForwardingRules_ok]

/-- The state file changes when the install comes to its rename. -/
theorem stateFile_stopped_installBridge (host : Host) (bridge : String) (count : Nat) :
    ((installBridge host.recorded bridge).stopped count host).stateFile =
      if count < clearing host bridge + adding host bridge + 5 then host.stateFile
      else some (bridge ++ "\n") := by
  have hcleared : Moves SameFile (clearRecorded host.recorded bridge) := clearRecorded_sameFile
  have hadded : ∀ s, ((addForwardingRules bridge).after s).stateFile = s.stateFile :=
    addForwardingRules_sameFile.after .refl
  obtain ⟨hle, hstop⟩ | ⟨j, rfl, hle, hstop⟩ | ⟨j, rfl, hstop⟩ :=
    stopped_installBridge_cases host bridge count
  · rw [hstop, if_pos (by omega)]
    exact hcleared.stopped .refl count host
  · rw [hstop, if_pos (by omega)]
    exact (hcleared.after .refl host).trans (addForwardingRules_sameFile.stopped .refl j _)
  rw [hstop, stopped_atomicHostFile]
  by_cases hj : j < 5
  · rw [if_pos hj, if_pos (by omega), hadded]
    exact hcleared.after .refl host
  · rw [if_neg hj, if_neg (by omega)]

/-- The bridge of the install has a rule from its first rule on. -/
theorem holds_stopped_installBridge (host : Host) (bridge : String) (count : Nat) :
    ((installBridge host.recorded bridge).stopped count host).Holds bridge ↔
      host.Holds bridge ∨ clearing host bridge + 2 ≤ count := by
  have hcleared : Moves (SameRules bridge) (clearRecorded host.recorded bridge) :=
    clearRecorded_sameRules (.inr rfl)
  have hstart := (hcleared.after .refl host).holds_iff
  obtain ⟨hle, hstop⟩ | ⟨j, rfl, -, hstop⟩ | ⟨j, rfl, hstop⟩ :=
    stopped_installBridge_cases host bridge count
  · rw [hstop, (hcleared.stopped .refl count host).holds_iff]
    exact ⟨.inl, fun h => h.resolve_right (by omega)⟩
  · rw [hstop, holds_stopped_addForwardingRules, hstart, Nat.add_le_add_iff_left]
  refine iff_of_true ?_ (.inr (by rw [adding]; omega))
  have hfull : ((addForwardingRules bridge).after
      ((clearRecorded host.recorded bridge).after host)).Holds bridge := by
    rw [← stopped_length, holds_stopped_addForwardingRules, length_addForwardingRules]
    exact .inr (by omega)
  rw [hstop, stopped_atomicHostFile]
  split
  · exact hfull
  · exact hfull

/-- Once the file names the new bridge, the old one has no rule left. -/
theorem not_holds_stopped_installBridge {count : Nat}
    (hsaved : host.recorded = some saved) (hother : saved ≠ bridge)
    (hcount : clearing host bridge + adding host bridge + 5 ≤ count) :
    ¬((installBridge host.recorded bridge).stopped count host).Holds saved := by
  have hcleared : ¬((clearRecorded host.recorded bridge).after host).Holds saved := by
    rw [hsaved]
    exact not_holds_after_clearRecorded hother
  obtain ⟨hle, -⟩ | ⟨j, rfl, hle, -⟩ | ⟨j, rfl, hstop⟩ :=
    stopped_installBridge_cases host bridge count
  · omega
  · omega
  have hadded := (addForwardingRules_sameRules hother).after .refl
    ((clearRecorded host.recorded bridge).after host)
  rw [hstop, stopped_atomicHostFile]
  split
  · exact fun h => hcleared (hadded.holds_iff.mp h)
  · exact fun h => hcleared (hadded.holds_iff.mp h)

end

/-! ## Stray bridges -/

/-- An install that may be stopped after some number of operations. -/
structure Attempt where
  service : Service
  stop : Option Nat

/-- The host that an attempt leaves. -/
def Attempt.run (attempt : Attempt) (host : Host) : Host :=
  interrupt attempt.stop (attempt.service.run "install") host

/-- The bridge has a rule, and the state file does not name it. -/
def Host.Stray (host : Host) (bridge : String) : Prop :=
  host.Holds bridge ∧ host.recorded ≠ some bridge

/-- The install of a bridge that is not recorded is stopped with a rule of the
bridge in place, and before the rename that records it. -/
def Abandoned (host : Host) (bridge : String) (stop : Option Nat) : Prop :=
  host.recorded ≠ some bridge ∧ ∃ count, stop = some count ∧
    (host.Holds bridge ∨ clearing host bridge + 3 ≤ count) ∧
    count < clearing host bridge + adding host bridge + 6

section

variable {attempt : Attempt} {bridge other : String} {host : Host}

theorem recorded_eq_of_sameFile (h : SameFile s t) : t.recorded = s.recorded := by
  rw [Host.recorded, Host.recorded, readForwardingState, readForwardingState, h]

variable {saved : String} {found : Bool}

/-- An attempt is an install that is stopped in its work, unless it goes to its
end and writes the file. -/
theorem run_eq_stopped (huses : attempt.service.Uses bridge)
    (hread : readForwardingState host = .ok (saved, found)) :
    attempt.run host = (installBridge host.recorded bridge).stopped
      (attempt.stop.getD (clearing host bridge + adding host bridge + 7) - 1) host := by
  have haside : aside host = (.ok (), [host]) := rfl
  have hlen : (attempt.service.run "install" host).2.length =
      clearing host bridge + adding host bridge + 7 := by
    rw [run_install huses hread, bind_ok haside, List.length_append, final_cons, final_nil,
      length_installBridge, List.length_singleton]
    omega
  have hstopped : ∀ count, (attempt.service.run "install").stopped count host =
      (installBridge host.recorded bridge).stopped (count - 1) host := by
    intro count
    rw [stopped, run_install huses hread]
    cases count with
    | zero => rfl
    | succ count => exact final_cons host host _
  rw [Attempt.run, interrupt_eq_stopped, hlen, hstopped]

/-- What a host records after an attempt. -/
theorem recorded_run (huses : attempt.service.Uses bridge)
    (hread : readForwardingState host = .ok (saved, found)) : (attempt.run host).recorded =
      if attempt.stop.getD (clearing host bridge + adding host bridge + 7) <
        clearing host bridge + adding host bridge + 6 then host.recorded else some bridge := by
  have hpattern := bridgePattern_of_discoverBridge huses.discovers
  have hfile := stateFile_stopped_installBridge host bridge
    (attempt.stop.getD (clearing host bridge + adding host bridge + 7) - 1)
  rw [← run_eq_stopped huses hread] at hfile
  split
  · rw [if_pos (by omega)] at hfile
    exact recorded_eq_of_sameFile hfile
  rw [if_neg (by omega)] at hfile
  have hpub : SameFile { host with stateFile := some (bridge ++ "\n") } (attempt.run host) :=
    hfile
  rw [recorded_eq_of_sameFile hpub, Host.recorded, readForwardingState_published hpattern]

/-- The bridge of an attempt is stray afterwards if the attempt was abandoned. -/
theorem stray_run_iff (huses : attempt.service.Uses bridge)
    (hread : readForwardingState host = .ok (saved, found)) :
    (attempt.run host).Stray bridge ↔ Abandoned host bridge attempt.stop := by
  have hholds := holds_stopped_installBridge host bridge
    (attempt.stop.getD (clearing host bridge + adding host bridge + 7) - 1)
  rw [← run_eq_stopped huses hread] at hholds
  rw [Host.Stray, hholds, recorded_run huses hread, Abandoned]
  cases hstop : attempt.stop with
  | none => simp
  | some count =>
    simp only [Option.getD_some, Option.some.injEq, exists_eq_left']
    have hcount : clearing host bridge + 2 ≤ count - 1 ↔ clearing host bridge + 3 ≤ count := by
      omega
    rw [hcount]
    by_cases hearly : count < clearing host bridge + adding host bridge + 6
    · simp only [hearly, if_true, and_true]
      exact and_comm
    · simp [hearly]

/-- An attempt leaves every other bridge stray or not, as it was. -/
theorem stray_run_iff_of_not_uses (hother : ¬attempt.service.Uses other)
    (hread : readForwardingState host = .ok (saved, found)) :
    (attempt.run host).Stray other ↔ host.Stray other := by
  by_cases hidle : ∀ bridge, ¬attempt.service.Uses bridge
  · rw [Attempt.run, interrupt_eq_self (run_install_idle hidle)]
  simp only [not_forall, not_not] at hidle
  obtain ⟨bridge, huses⟩ := hidle
  have hdiff : other ≠ bridge := fun heq => hother (heq ▸ huses)
  have hrec := recorded_run huses hread
  by_cases hsaved : host.recorded = some other
  · -- The recorded bridge: the attempt still records it, or has cleared it.
    refine iff_of_false ?_ fun h => h.2 hsaved
    intro ⟨hholds, hnot⟩
    split at hrec
    · exact hnot (hrec.trans hsaved)
    · rw [run_eq_stopped huses hread] at hholds
      exact not_holds_stopped_installBridge hsaved hdiff (by omega) hholds
  have hrules : SameRules other host (attempt.run host) := by
    rw [run_eq_stopped huses hread]
    exact (installBridge_sameRules hdiff hsaved).stopped .refl _ host
  have hnot : (attempt.run host).recorded ≠ some other := by
    rw [hrec]
    split
    · exact hsaved
    · exact fun heq => hdiff (Option.some.inj heq).symm
  rw [Host.Stray, hrules.holds_iff]
  exact and_congr_right fun _ => iff_of_true hnot hsaved

theorem readable_of_run {state : String × Bool}
    (h : readForwardingState (attempt.run host) = .ok state) :
    ∃ before, readForwardingState host = .ok before := by
  cases hread : readForwardingState host with
  | ok before => exact ⟨before, rfl⟩
  | error e =>
    have hidle : ∀ t ∈ (attempt.service.run "install" host).2, t = host := by
      rw [run_install_unreadable hread]
      simp
    rw [Attempt.run, interrupt_eq_self hidle, hread] at h
    cases h

end

/-! ## A sequence of installs -/

/-- The host after a sequence of attempts. -/
def afterInstalls (attempts : List Attempt) (host : Host) : Host :=
  attempts.foldl (fun host attempt => attempt.run host) host

section

variable {attempts : List Attempt} {bridge : String} {host : Host} {state : String × Bool}

theorem readable_of_afterInstalls
    (h : readForwardingState (afterInstalls attempts host) = .ok state) :
    ∃ before, readForwardingState host = .ok before := by
  induction attempts generalizing host with
  | nil => exact ⟨state, h⟩
  | cons attempt attempts ih =>
    obtain ⟨middle, hmiddle⟩ := ih h
    exact readable_of_run hmiddle

/-- Installs of other bridges do not change whether a bridge is stray. -/
theorem stray_afterInstalls_iff (hothers : ∀ attempt ∈ attempts, ¬attempt.service.Uses bridge)
    (h : readForwardingState (afterInstalls attempts host) = .ok state) :
    (afterInstalls attempts host).Stray bridge ↔ host.Stray bridge := by
  induction attempts generalizing host with
  | nil => exact Iff.rfl
  | cons attempt attempts ih =>
    rw [List.forall_mem_cons] at hothers
    have hrest : readForwardingState (afterInstalls attempts (attempt.run host)) = .ok state := h
    obtain ⟨middle, hmiddle⟩ := readable_of_afterInstalls hrest
    obtain ⟨before, hbefore⟩ := readable_of_run hmiddle
    exact (ih hothers.2 hrest).trans (stray_run_iff_of_not_uses hothers.1 hbefore)

/-- The last install of a bridge decides whether the bridge is stray. -/
theorem stray_afterInstalls_last {before later : List Attempt} {attempt : Attempt}
    (huses : attempt.service.Uses bridge) (hlater : ∀ other ∈ later, ¬other.service.Uses bridge)
    (h : readForwardingState (afterInstalls (before ++ attempt :: later) host) = .ok state) :
    (afterInstalls (before ++ attempt :: later) host).Stray bridge ↔
      Abandoned (afterInstalls before host) bridge attempt.stop := by
  have hsplit : afterInstalls (before ++ attempt :: later) host =
      afterInstalls later (attempt.run (afterInstalls before host)) := by
    rw [afterInstalls, List.foldl_append]
    rfl
  rw [hsplit] at h ⊢
  obtain ⟨middle, hmiddle⟩ := readable_of_afterInstalls h
  obtain ⟨first, hfirst⟩ := readable_of_run hmiddle
  exact (stray_afterInstalls_iff hlater h).trans (stray_run_iff huses hfirst)

end

/-! ## The uninstall -/

theorem removeHostFile_rules (host : Host) : (removeHostFile.after host).rules = host.rules := by
  cases hfile : host.stateFile with
  | none => simp [Prog.after, removeHostFile, hfile]
  | some data => simp [Prog.after, removeHostFile, hfile, bind, operate, aside, observe]

/-- An uninstall that ends well has removed the rules of one bridge: the recorded
one, or the one it found if none is recorded. -/
theorem uninstall_spec {service : Service} {host : Host}
    (h : (service.run "uninstall" host).1 = .ok ()) :
    ∃ target, (∃ state, readForwardingState host = .ok state) ∧ (host.recorded = some target ∨
        (host.stateFile = none ∧ host.recorded = none ∧ service.discoverBridge = .ok target)) ∧
      ∀ bridge, ((service.run "uninstall").after host).Holds bridge ↔
        host.Holds bridge ∧ bridge ≠ target := by
  cases hplan : planForwarding "uninstall" host with
  | error e =>
    rw [Service.run, inspect_bind_error hplan] at h
    cases h
  | ok plan =>
  have hrun : service.run "uninstall" host = service.forwarding plan host := by
    rw [Service.run, inspect_bind_ok hplan]
  obtain ⟨e, states, hfailed, -⟩ | ⟨target, -, htgt, hwork⟩ := forwarding_cases service plan host
  · rw [hrun, hfailed] at h
    cases h
  obtain ⟨saved, found, hread, rfl⟩ := planForwarding_eq_ok rfl hplan
  refine ⟨target, ⟨_, hread⟩, ?_, fun bridge => ?_⟩
  · obtain ⟨hfile, hrec, rfl, rfl⟩ | ⟨-, hrec, -, rfl⟩ := readForwardingState_eq_ok hread
    · exact .inr ⟨hfile, hrec, htgt⟩
    · exact .inl (hrec.trans (congrArg some (Except.ok.inj htgt)))
  have hafter : (service.run "uninstall").after host =
      removeHostFile.after ((removeForwardingRules target).after host) := by
    rw [Prog.after, hrun, hwork, ← Prog.after, after_bind (a := ()) rfl, applyForwarding,
      after_bind (a := ()) rfl]
    exact after_bind removeForwardingRules_ok
  have hrules : ((service.run "uninstall").after host).Holds bridge ↔
      ((removeForwardingRules target).after host).Holds bridge := by
    rw [hafter, Host.Holds, removeHostFile_rules]
    rfl
  rw [hrules]
  by_cases hbridge : bridge = target
  · subst hbridge
    exact iff_of_false not_holds_after_removeForwardingRules fun h => h.2 rfl
  · rw [((removeForwardingRules_sameRules hbridge).after .refl host).holds_iff]
    simp [hbridge]

/-! ## What remains after the uninstall -/

theorem exists_last {α : Type} {p : α → Prop} {items : List α} (h : ∃ item ∈ items, p item) :
    ∃ before item later, items = before ++ item :: later ∧ p item ∧ ∀ other ∈ later, ¬p other := by
  induction items with
  | nil => simp at h
  | cons first items ih =>
    by_cases hrest : ∃ item ∈ items, p item
    · obtain ⟨before, item, later, rfl, hitem, hlater⟩ := ih hrest
      exact ⟨first :: before, item, later, rfl, hitem, hlater⟩
    obtain ⟨item, hmem, hitem⟩ := h
    obtain rfl | hmem := List.mem_cons.mp hmem
    · exact ⟨[], item, items, rfl, hitem, fun other hother hp => hrest ⟨other, hother, hp⟩⟩
    · exact absurd ⟨item, hmem, hitem⟩ hrest

/-- After a sequence of installs, each of which may have been stopped, and an
uninstall that ends well, no bridge of these installs has a rule, exactly when no
last install of a bridge was abandoned, unless nothing is recorded and the
uninstall finds that bridge again. -/
theorem uninstall_clears_iff (host : Host) (attempts : List Attempt) (service : Service)
    (hdone : (service.run "uninstall" (afterInstalls attempts host)).1 = .ok ()) :
    (∀ attempt ∈ attempts, ∀ bridge, attempt.service.Uses bridge →
      ¬((service.run "uninstall").after (afterInstalls attempts host)).Holds bridge) ↔
    ∀ before attempt later bridge, attempts = before ++ attempt :: later →
      attempt.service.Uses bridge → (∀ other ∈ later, ¬other.service.Uses bridge) →
      Abandoned (afterInstalls before host) bridge attempt.stop →
      (afterInstalls attempts host).stateFile = none ∧ service.discoverBridge = .ok bridge := by
  obtain ⟨target, ⟨state, hstate⟩, htarget, hremains⟩ := uninstall_spec hdone
  constructor
  · intro hclear before attempt later bridge hsplit huses hlater habandoned
    have hstray : (afterInstalls attempts host).Stray bridge := by
      subst hsplit
      exact (stray_afterInstalls_last huses hlater hstate).mpr habandoned
    have hmem : attempt ∈ attempts := by simp [hsplit]
    have hbridge : bridge = target := by
      by_contra hother
      exact hclear attempt hmem bridge huses ((hremains bridge).mpr ⟨hstray.1, hother⟩)
    subst hbridge
    obtain hrecorded | ⟨hfile, -, hfound⟩ := htarget
    · exact absurd hrecorded hstray.2
    · exact ⟨hfile, hfound⟩
  · intro hcondition attempt hmem bridge huses hholds
    obtain ⟨hholds, hother⟩ := (hremains bridge).mp hholds
    have hused : ∃ item ∈ attempts, item.service.Uses bridge := ⟨attempt, hmem, huses⟩
    obtain ⟨before, last, later, rfl, hlast, hlater⟩ := exists_last hused
    have hstray : (afterInstalls (before ++ last :: later) host).Stray bridge := by
      refine ⟨hholds, fun hrecorded => ?_⟩
      obtain htarget | ⟨-, hnone, -⟩ := htarget
      · exact hother (Option.some.inj (hrecorded.symm.trans htarget))
      · rw [hnone] at hrecorded
        cases hrecorded
    have habandoned := (stray_afterInstalls_last hlast hlater hstate).mp hstray
    obtain ⟨hfile, hfound⟩ := hcondition before last later bridge rfl hlast hlater habandoned
    obtain hrecorded | ⟨-, -, htarget⟩ := htarget
    · simp [Host.recorded, readForwardingState, hfile] at hrecorded
    · exact hother (Except.ok.inj (hfound.symm.trans htarget))

/-- A service on a host where virsh reports the given bridge. -/
def sampleService (bridge : String) : Service where
  runner := true
  outputRunner := true
  euid := 0
  virshBin := "/usr/bin/virsh"
  firewallBin := "/usr/bin/firewall-cmd"
  firewalldRunning := true
  netInfo := .ok ("Name: atum\nBridge: " ++ bridge ++ "\n")

/-- The install of a bridge is stopped after its first rule and done again. -/
theorem uninstall_clears_repeated : let host : Host := ⟨[], none⟩
    let attempts : List Attempt :=
      [⟨sampleService "virbr1", some 3⟩, ⟨sampleService "virbr1", none⟩]
    ∀ attempt ∈ attempts, ∀ bridge, attempt.service.Uses bridge →
      ¬(((sampleService "virbr2").run "uninstall").after
        (afterInstalls attempts host)).Holds bridge := by
  refine (uninstall_clears_iff _ _ _ (by decide +kernel)).mpr ?_
  intro before attempt later bridge hsplit huses hlater habandoned
  obtain ⟨-, count, hstop, -⟩ := habandoned
  match before with
  | [] =>
    obtain ⟨rfl, rfl⟩ := List.cons.inj hsplit
    exact absurd huses (hlater ⟨sampleService "virbr1", none⟩ List.mem_cons_self)
  | [first] =>
    obtain ⟨-, hsplit⟩ := List.cons.inj hsplit
    obtain ⟨rfl, -⟩ := List.cons.inj hsplit
    cases hstop
  | first :: second :: rest => simp at hsplit

/-- The install of `virbr1` is stopped after its first rule, and the next install
finds `virbr2`: it records that bridge and knows nothing of the first one, and the
uninstall leaves the rule of `virbr1` in the permanent table. -/
theorem uninstall_leaves_rule :
    let attempts : List Attempt :=
      [⟨sampleService "virbr1", some 3⟩, ⟨sampleService "virbr2", none⟩]
    let host := afterInstalls attempts ⟨[], none⟩
    (sampleService "virbr1").Uses "virbr1" ∧
      ((sampleService "virbr2").run "uninstall" host).1 = .ok () ∧
      (((sampleService "virbr2").run "uninstall").after host).Holds "virbr1" := by
  refine ⟨⟨⟨rfl, by decide, rfl, rfl⟩, by decide +kernel⟩, by decide +kernel, ?_⟩
  exact ⟨⟨true, .ingress, "virbr1"⟩, by decide +kernel, rfl⟩

end Atum.Infra
