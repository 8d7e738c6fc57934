import Atum.Admission.PathIndex
import Atum.Library.Rewriting

/-!
# Link resolution is rewriting

A path below the root is a list of names.  `rewrite` replaces the first link on it by the
target of the link, and the resolution of a path is the run of this rewriting: it follows
the run for as long as the chain may be (`resolveFrom_run`), and it reports a cycle only if
the run never ends (`resolveFrom_cycle`), since a path that comes back comes back for ever.
-/

namespace Atum.Admission

open Atum.Go Rewriting List Option

/-! ## Rewriting paths -/

/-- The state of a path. -/
def entry (index : PathIndex) (names : List String) : Option PathState :=
  index.states.lookup (pathText names)

/-- A link on a path: its names, its state, and the names behind it. -/
structure Hop where
  link : List String
  state : PathState
  rest : List String
deriving DecidableEq

/-- The places at which a path can be cut.  The root is cut into itself. -/
def cuts (names : List String) : List (List String × List String) :=
  if names = [] then [([], [])]
  else (List.range names.length).map fun place => (names.take (place + 1), names.drop (place + 1))

/-- The first link on a path. -/
def firstLink (index : PathIndex) (names : List String) : Option Hop :=
  (cuts names).findSome? fun (link, rest) =>
    match entry index link with
    | some state =>
      if state.isLink then some { link := link, state := state, rest := rest } else none
    | none => none

/-- Where the target of a link starts: a relative target of a symbolic link at the directory
of the link, and every other target at the root. -/
def Hop.start (hop : Hop) : List String :=
  if hop.state.kind = typeSymlink ∧ isAbs hop.state.link = false then hop.link.dropLast else []

/-- The path with the target in the place of the link. -/
def Hop.target (hop : Hop) : List String :=
  normalise (hop.start ++ split hop.state.link '/' ++ hop.rest)

/-- One rewriting step. -/
def rewrite (index : PathIndex) (names : List String) : Option (Hop × List String) :=
  (firstLink index names).map fun hop => (hop, hop.target)

/-! ## The step of the source -/

variable {names : List String}

theorem components_pathText (hne : names ≠ [])
    (h : ∀ name ∈ names, PlainName name) : components (pathText names) = names := by
  rw [components, trim_pathText h, split_pathText hne h]

theorem components_root : components (pathText []) = [""] := by decide

theorem findSome?_congr {α β : Type} {f g : α → Option β} {items : List α}
    (h : ∀ item ∈ items, f item = g item) : items.findSome? f = items.findSome? g := by
  induction items with
  | nil => rfl
  | cons item rest ih =>
    rw [forall_mem_cons] at h
    rw [List.findSome?_cons, List.findSome?_cons, h.1, ih h.2]

/-- The loop over the components finds the first link. -/
theorem firstLinkAt_eq (index : PathIndex) (h : ∀ name ∈ names, PlainName name) :
    firstLinkAt index (components (pathText names)) = (firstLink index names).map fun hop =>
        (hop.link.length - 1, pathText hop.link, hop.state) := by
  by_cases hnil : names = []
  · subst hnil
    have hroot : joinPath [""] = pathText [] := by decide
    rw [components_root, firstLinkAt, firstLink, cuts, if_pos rfl]
    simp only [length_singleton, range_one, List.findSome?_singleton,
      take_succ_cons, take_zero, hroot, entry]
    cases index.states.lookup (pathText []) with
    | none => rfl
    | some state =>
      dsimp only
      split <;> rfl
  · rw [components_pathText hnil h, firstLinkAt, firstLink, cuts, if_neg hnil, List.findSome?_map,
      map_findSome?]
    refine findSome?_congr fun place hplace => ?_
    have hlt : place < names.length := mem_range.mp hplace
    have htake : ∀ name ∈ names.take (place + 1), PlainName name :=
      fun name hname => h name (mem_of_mem_take hname)
    have hlen : (names.take (place + 1)).length - 1 = place := by
      rw [length_take]
      omega
    rw [joinPath_plain htake]
    simp only [Function.comp_apply, entry]
    cases index.states.lookup (pathText (names.take (place + 1))) with
    | none => rfl
    | some state =>
      dsimp only
      split
      · rw [map_some, hlen]
      · rfl

/-- The first link is on the path. -/
structure IsHop (index : PathIndex) (names : List String) (hop : Hop) : Prop where
  path : names = hop.link ++ hop.rest
  proper : names ≠ [] → hop.link ≠ []
  state : entry index hop.link = some hop.state
  isLink : hop.state.isLink = true

variable {index : PathIndex} {hop : Hop}

theorem firstLink_some (h : firstLink index names = some hop) : IsHop index names hop := by
  obtain ⟨⟨link, rest⟩, hcut, hfound⟩ := exists_of_findSome?_eq_some h
  have hstate : entry index link = some hop.state ∧ hop.state.isLink = true ∧ hop.link = link ∧
      hop.rest = rest := by
    dsimp only at hfound
    split at hfound
    · next state hent =>
      split at hfound
      · next hlink =>
        cases hfound
        exact ⟨hent, hlink, rfl, rfl⟩
      · cases hfound
    · cases hfound
  obtain ⟨hent, hlink, rfl, rfl⟩ := hstate
  unfold cuts at hcut
  split at hcut
  · next hnil =>
    obtain ⟨hfirst, hsecond⟩ := Prod.mk.inj (mem_singleton.mp hcut)
    exact ⟨by rw [hnil, hfirst, hsecond]; rfl, fun hne => absurd hnil hne, hent, hlink⟩
  obtain ⟨place, hplace, hpair⟩ := mem_map.mp hcut
  obtain ⟨hfirst, hsecond⟩ := Prod.mk.inj hpair
  refine ⟨by rw [← hfirst, ← hsecond, take_append_drop], fun hne => ?_, hent, hlink⟩
  rw [← hfirst]
  have hlt : place < names.length := mem_range.mp hplace
  exact ne_nil_of_length_pos (by rw [length_take]; omega)

theorem IsHop.plain (hhop : IsHop index names hop) (h : ∀ name ∈ names, PlainName name) :
    (∀ name ∈ hop.link, PlainName name) ∧ ∀ name ∈ hop.rest, PlainName name := by
  rw [hhop.path] at h
  exact ⟨fun name hname => h name (mem_append_left _ hname),
    fun name hname => h name (mem_append_right _ hname)⟩

/-- The text that the source joins a relative target with. -/
def Hop.targetText (hop : Hop) : String :=
  if hop.state.kind = typeSymlink ∧ isAbs hop.state.link = false then
    joinPath [dir ("/" ++ pathText hop.link), hop.state.link]
  else hop.state.link

theorem Hop.parts_spec (h : ∀ name ∈ hop.link, PlainName name) :
    ∀ part ∈ hop.start ++ split hop.state.link '/', '/' ∉ part.toList := by
  intro part hpart
  rcases mem_append.mp hpart with hpart | hpart
  · unfold Hop.start at hpart
    split at hpart
    · exact (h part (mem_of_mem_dropLast hpart)).2.2.2
    · cases hpart
  · exact not_mem_of_mem_split hpart

theorem Hop.targetText_spec (h : ∀ name ∈ hop.link, PlainName name) (hlink : hop.state.link ≠ "") :
    hop.targetText ≠ "" ∧
      normalise (split hop.targetText '/') = normalise (hop.start ++ split hop.state.link '/') := by
  unfold Hop.targetText Hop.start
  split
  · have hdir := dir_slash_pathText h
    have hne : dir ("/" ++ pathText hop.link) ≠ "" := by
      intro hempty
      have hlen := congrArg (fun s => s.toList.length) (hdir.symm.trans hempty)
      simp at hlen
    have hdropLast : ∀ name ∈ hop.link.dropLast, PlainName name :=
      fun name hname => h name (mem_of_mem_dropLast hname)
    refine ⟨by rw [joinPath_pair hne hlink]; exact clean_ne_empty _, ?_⟩
    rw [normalise_split_joinPath hne hlink, hdir, split_slash_append, cons_append,
      normalise_cons_empty, normalise_split_pathText hdropLast]
  · exact ⟨hlink, rfl⟩

/-- The source replaces the link by the target. -/
theorem linkTarget_eq (h : ∀ name ∈ names, PlainName name) (hhop : IsHop index names hop)
    (hlink : hop.state.link ≠ "") :
    linkTarget (components (pathText names)) (hop.link.length - 1) (pathText hop.link) hop.state =
      pathText hop.target := by
  obtain ⟨hfront, hrest⟩ := hhop.plain h
  obtain ⟨hne, htext⟩ := Hop.targetText_spec hfront hlink
  have hparts := Hop.parts_spec hfront
  have htgt : hop.target = normalise (hop.start ++ split hop.state.link '/' ++ hop.rest) := rfl
  have hjoined : ∀ text, normalise (split text '/') = hop.target →
      cleanPath text = pathText hop.target :=
    fun text heq => by rw [cleanPath_eq, heq]
  have hunfold : ∀ parts, linkTarget parts (hop.link.length - 1) (pathText hop.link) hop.state =
      cleanPath (if hop.link.length - 1 + 1 < parts.length then
        joinPath [hop.targetText, joinPath (parts.drop (hop.link.length - 1 + 1))]
      else hop.targetText) := fun _ => rfl
  rw [hunfold]
  refine hjoined _ ?_
  by_cases hlast : hop.rest = []
  · have hlen : ¬ hop.link.length - 1 + 1 < (components (pathText names)).length := by
      by_cases hnil : names = []
      · rw [hnil, components_root, length_singleton]
        omega
      · rw [components_pathText hnil h, hhop.path, hlast, append_nil]
        omega
    rw [if_neg hlen, htext, htgt, hlast, append_nil]
  have hnil : names ≠ [] := by
    intro hnil
    have hempty := hhop.path.symm.trans hnil
    exact hlast (append_eq_nil_iff.mp hempty).2
  have hpos := length_pos_of_ne_nil (hhop.proper hnil)
  have hplace : hop.link.length - 1 + 1 = hop.link.length := by omega
  have hpos' := length_pos_of_ne_nil hlast
  rw [components_pathText hnil h, hplace, if_pos (by rw [hhop.path, length_append]; omega),
    hhop.path, drop_left, joinPath_plain hrest,
    normalise_split_joinPath hne (pathText_ne_empty hlast hrest), split_pathText hlast hrest,
    normalise_append (fun part hpart => not_mem_of_mem_split hpart), htext, htgt,
    ← normalise_append hparts]

/-- The link is the last component if nothing is behind it. -/
theorem IsHop.last_iff (hhop : IsHop index names hop) (h : ∀ name ∈ names, PlainName name) :
    (hop.link.length - 1 + 1 == (components (pathText names)).length) = decide (hop.rest = []) := by
  by_cases hnil : names = []
  · have hempty := append_eq_nil_iff.mp (hhop.path.symm.trans hnil)
    rw [hnil, hempty.1, hempty.2]
    rfl
  have hpos := length_pos_of_ne_nil (hhop.proper hnil)
  rw [components_pathText hnil h, hhop.path, length_append, Bool.eq_iff_iff, beq_iff_eq,
    decide_eq_true_iff, ← length_eq_zero_iff]
  omega

theorem IsHop.plain_target (hhop : IsHop index names hop) (h : ∀ name ∈ names, PlainName name) :
    ∀ name ∈ hop.target, PlainName name := by
  obtain ⟨hfront, hrest⟩ := hhop.plain h
  refine plainName_normalise fun part hpart => ?_
  rcases mem_append.mp hpart with hpart | hpart
  · exact Hop.parts_spec hfront part hpart
  · exact (hrest part hpart).2.2.2

/-- What a link makes of the state of its target. -/
def Hop.through (hop : Hop) : Except LinkError PathState → Except LinkError PathState :=
  throughLink (pathText hop.link) (pathText hop.target) (decide (hop.rest = [])) hop.state

variable {target : List String}

theorem rewrite_some (h : rewrite index names = some (hop, target)) :
    firstLink index names = some hop ∧ target = hop.target := by
  obtain ⟨found, hfound, heq⟩ := map_eq_some_iff.mp h
  obtain ⟨rfl, rfl⟩ := Prod.mk.inj heq
  exact ⟨hfound, rfl⟩

section Calls

variable {index : PathIndex} {names : List String} (h : ∀ name ∈ names, PlainName name)
  {left : Nat} {visited : List String} (hfresh : pathText names ∉ visited)

include h hfresh

/-- A call on a path without links. -/
theorem resolveFrom_of_end (hend : rewrite index names = none) :
    resolveFrom index (left + 1) (pathText names) visited =
      .ok (storedState index (pathText names)) := by
  rw [rewrite, map_eq_none_iff] at hend
  rw [resolveFrom, if_neg hfresh, firstLinkAt_eq index h, hend, map_none]

/-- A call on a path with a link. -/
theorem resolveFrom_of_step {target : List String}
    (hstep : rewrite index names = some (hop, target)) :
    resolveFrom index (left + 1) (pathText names) visited =
      if hop.state.link = "" then .error (.empty (pathText hop.link))
      else hop.through (resolveFrom index left (pathText target) (pathText names :: visited)) := by
  obtain ⟨hfirst, rfl⟩ := rewrite_some hstep
  have hhop := firstLink_some hfirst
  rw [resolveFrom, if_neg hfresh, firstLinkAt_eq index h, hfirst, map_some]
  dsimp only
  by_cases hempty : hop.state.link = ""
  · rw [if_pos hempty, if_pos hempty]
  · rw [if_neg hempty, if_neg hempty, linkTarget_eq h hhop hempty, hhop.last_iff h]
    rfl

end Calls

variable {current : String}

theorem throughLink_cycle {linkPath target : String} {last : Bool} {state : PathState}
    {result : Except LinkError PathState}
    (h : throughLink linkPath target last state result = .error (.cycle current)) :
    result = .error (.cycle current) := by
  unfold throughLink at h
  split at h
  · exact h
  split at h
  · split at h
    · cases h
    · cases h
  · cases h

/-! ## Runs -/

/-- The visited paths are those that lead to a path. -/
def LeadTo (index : PathIndex) (visited : List String) (names : List String) : Prop :=
  ∀ text ∈ visited, ∃ earlier hop hops, text = pathText earlier ∧
    (∀ name ∈ earlier, PlainName name) ∧ Run (rewrite index) earlier (hop :: hops) names

variable {visited : List String}

theorem LeadTo.cons (hlead : LeadTo index visited names) (h : ∀ name ∈ names, PlainName name)
    (hstep : rewrite index names = some (hop, target)) :
    LeadTo index (pathText names :: visited) target := by
  intro text htext
  rcases mem_cons.mp htext with rfl | htext
  · exact ⟨names, hop, [], rfl, h, Run.single hstep⟩
  · obtain ⟨earlier, first, hops, heq, hplain, hrun⟩ := hlead text htext
    exact ⟨earlier, first, hops ++ [hop], heq, hplain, hrun.trans (Run.single hstep)⟩

/-- A path that has been visited never comes to an end. -/
theorem LeadTo.not_ends (hlead : LeadTo index visited names) (h : ∀ name ∈ names, PlainName name)
    (hmem : pathText names ∈ visited) : ¬ Ends (rewrite index) names := by
  obtain ⟨earlier, hop, hops, htext, hplain, hrun⟩ := hlead _ hmem
  obtain rfl := pathText_injective h hplain htext
  exact not_ends_of_cycle hrun

/-- A cycle is reported only if the rewriting never ends. -/
theorem resolveFrom_cycle {left : Nat} :
    ∀ {names : List String} {visited : List String}, (∀ name ∈ names, PlainName name) →
      LeadTo index visited names →
      resolveFrom index left (pathText names) visited = .error (.cycle current) →
      ¬ Ends (rewrite index) names := by
  induction left with
  | zero =>
    intro names visited _ _ hres
    cases hres
  | succ left ih =>
    intro names visited h hlead hres
    by_cases hmem : pathText names ∈ visited
    · exact hlead.not_ends h hmem
    cases hstep : rewrite index names with
    | none =>
      rw [resolveFrom_of_end h hmem hstep] at hres
      cases hres
    | some step =>
      obtain ⟨hop, target⟩ := step
      obtain ⟨hfirst, htgt⟩ := rewrite_some hstep
      rw [resolveFrom_of_step h hmem hstep] at hres
      split at hres
      · cases hres
      have hplain : ∀ name ∈ target, PlainName name :=
        htgt ▸ (firstLink_some hfirst).plain_target h
      have hnever := ih hplain (hlead.cons h hstep) (throughLink_cycle hres)
      exact fun hends => hnever (hends.of_run (Run.single hstep))

/-- What the links of a run make of the state at its end. -/
def outcome (index : PathIndex) (hops : List Hop) (last : List String) :
    Except LinkError PathState :=
  hops.foldr Hop.through (.ok (storedState index (pathText last)))

variable {last : List String}

/-- A run to the end is followed. -/
theorem resolveFrom_run {hops : List Hop}
    (hrun : Run (rewrite index) names hops last) (hend : rewrite index last = none) :
    ∀ {left : Nat} {visited : List String}, (∀ name ∈ names, PlainName name) →
      LeadTo index visited names → hops.length < left → (∀ hop ∈ hops, hop.state.link ≠ "") →
      resolveFrom index left (pathText names) visited = outcome index hops last := by
  have hfresh : ∀ {names : List String} {hops : List Hop} {visited : List String},
      Run (rewrite index) names hops last → (∀ name ∈ names, PlainName name) →
      LeadTo index visited names → pathText names ∉ visited :=
    fun hrun h hlead hmem => hlead.not_ends h hmem ⟨_, last, hrun, hend⟩
  induction hrun with
  | refl names =>
    intro left visited h hlead hleft _
    obtain ⟨left, rfl⟩ : ∃ fewer, left = fewer + 1 := Nat.exists_eq_add_one.mpr hleft
    exact resolveFrom_of_end h (hfresh (.refl names) h hlead) hend
  | @cons names target last hop hops hstep hrun ih =>
    intro left visited h hlead hleft hlinks
    rw [length_cons] at hleft
    obtain ⟨left, rfl⟩ : ∃ fewer, left = fewer + 1 := Nat.exists_eq_add_one.mpr (by omega)
    rw [forall_mem_cons] at hlinks
    obtain ⟨hfirst, htgt⟩ := rewrite_some hstep
    have hplain : ∀ name ∈ target, PlainName name :=
      htgt ▸ (firstLink_some hfirst).plain_target h
    rw [resolveFrom_of_step h (hfresh (.cons hstep hrun) h hlead) hstep, if_neg hlinks.1,
      ih hend hfresh hplain (hlead.cons h hstep) (by omega) hlinks.2]
    rfl

/-- The state that is returned at the end of a run: the stored state with the text of the
first link, or nothing if there is no such file behind the links. -/
def found (index : PathIndex) (hops : List Hop) (last : List String) : PathState :=
  match hops with
  | [] => storedState index (pathText last)
  | hop :: _ =>
    if (storedState index (pathText last)).present then
      { storedState index (pathText last) with link := hop.state.link }
    else {}

/-- The run ends at a missing target of a link that is the last component of its path. -/
def Dangling (index : PathIndex) (hops : List Hop) (last : List String) : Prop :=
  (storedState index (pathText last)).present = false ∧ ∃ hop ∈ hops, hop.rest = []

theorem outcome_eq_found : ∀ {hops : List Hop}, ¬ Dangling index hops last →
      outcome index hops last = .ok (found index hops last)
  | [], _ => rfl
  | hop :: hops, hdangling => by
    have hrest : ¬ Dangling index hops last :=
      fun ⟨hmiss, other, hother, hlast⟩ =>
        hdangling ⟨hmiss, other, mem_cons_of_mem _ hother, hlast⟩
    have hfold : outcome index (hop :: hops) last = hop.through (outcome index hops last) := rfl
    rw [hfold, outcome_eq_found hrest]
    by_cases hpres : (storedState index (pathText last)).present = true
    · cases hops with
      | nil => simp [Hop.through, throughLink, found, hpres]
      | cons next others => simp [Hop.through, throughLink, found, hpres]
    have hmiss : (found index hops last).present = false := by
      cases hops with
      | nil => simpa [found] using hpres
      | cons next others => simp [found, hpres]
    have hmiddle : hop.rest ≠ [] := fun hlast =>
      hdangling ⟨by simpa using hpres, hop, mem_cons_self, hlast⟩
    rw [Hop.through, throughLink, if_pos hmiss, if_pos (decide_eq_false hmiddle), found,
      if_neg hpres]

/-- Resolving a path follows the rewriting of its links.  A cycle is reported only if the
rewriting never ends.  If it ends within 64 steps, without an empty target and not at a
missing target of a last link, the state at its end is returned. -/
theorem resolveOfficialPath_rewrites (index : PathIndex) (required : String) :
    (∀ current, resolveOfficialPath index (cleanPath required) = .error (.cycle current) →
      ¬ Ends (rewrite index) (normalise (split required '/'))) ∧
    ∀ hops last, Run (rewrite index) (normalise (split required '/')) hops last →
      rewrite index last = none → hops.length ≤ 64 → (∀ hop ∈ hops, hop.state.link ≠ "") →
      ¬ Dangling index hops last →
      resolveOfficialPath index (cleanPath required) = .ok (found index hops last) := by
  have hplain := plainName_normalise_split required
  have hnone : LeadTo index [] (normalise (split required '/')) :=
    fun text htext => absurd htext not_mem_nil
  rw [resolveOfficialPath, cleanPath_eq]
  refine ⟨fun current hcycle => resolveFrom_cycle hplain hnone hcycle,
    fun hops last hrun hend hlength hlinks hdangling => ?_⟩
  have hleft : hops.length < maxLinkChain + 1 := Nat.lt_succ_of_le hlength
  rw [resolveFrom_run hrun hend hplain hnone hleft hlinks, outcome_eq_found hdangling]

/-- A file `d/f`, a symbolic link `e` to its directory, and a symbolic link `l` to the
file through `e`. -/
def linkedFile : PathIndex where
  states := [("d", { present := true, kind := typeDir }),
    ("d/f", { present := true, kind := typeReg }),
    ("e", { present := true, kind := typeSymlink, link := "d" }),
    ("l", { present := true, kind := typeSymlink, link := "e/f" })]
  children := [("", ["d", "e", "l"]), ("d", ["d/f"])]

/-- The links on the path `l`. -/
def linkedHops : List Hop :=
  [{ link := ["l"], state := { present := true, kind := typeSymlink, link := "e/f" }, rest := [] },
    { link := ["e"], state := { present := true, kind := typeSymlink, link := "d" },
      rest := ["f"] }]

theorem run_linkedFile : Run (rewrite linkedFile) ["l"] linkedHops ["d", "f"] :=
  .cons (by decide +kernel) (.single (by decide +kernel) : Run (rewrite linkedFile) ["e", "f"] _ _)

theorem resolveOfficialPath_rewrites_linkedFile : resolveOfficialPath linkedFile (cleanPath "/l") =
      .ok { present := true, kind := typeReg, link := "e/f", resolved := "d/f" } := by
  have hstart : normalise (split "/l" '/') = ["l"] := by decide +kernel
  refine (resolveOfficialPath_rewrites linkedFile "/l").2 linkedHops ["d", "f"]
    (hstart ▸ run_linkedFile) (by decide +kernel) (by decide) (by decide) fun h => ?_
  exact absurd h.1 (by decide +kernel)

/-- A directory `a` and a symbolic link `l` with an empty target in it. -/
def emptyLink : PathIndex where
  states := [("a", { present := true, kind := typeDir }),
    ("a/l", { present := true, kind := typeSymlink, link := "" })]
  children := [("", ["a"]), ("a", ["a/l"])]

/-- The link on the path `a/l`. -/
def emptyHop : Hop :=
  { link := ["a", "l"], state := { present := true, kind := typeSymlink, link := "" }, rest := [] }

/-- Two ways in which the result is not the stored state: an empty target is an error
although the rewriting leads to the directory, and the text of the link takes the place of
the one in the stored state. -/
theorem resolveOfficialPath_not_stored :
    (Run (rewrite emptyLink) ["a", "l"] [emptyHop] ["a"] ∧ rewrite emptyLink ["a"] = none ∧
      (storedState emptyLink "a").present = true ∧
      resolveOfficialPath emptyLink "a/l" = .error (.empty "a/l")) ∧
    Run (rewrite linkedFile) ["l"] linkedHops ["d", "f"] ∧ rewrite linkedFile ["d", "f"] = none ∧
      (resolveOfficialPath linkedFile "l").map (·.link) = .ok "e/f" ∧
      (storedState linkedFile "d/f").link = "" := by
  refine ⟨⟨Run.single ?_, ?_, ?_, ?_⟩, run_linkedFile, ?_, ?_, ?_⟩
  all_goals decide +kernel

end Atum.Admission
