import Atum.Admission.Filesystem
import Atum.Go.Outcome

/-!
# The contents of the second pass

Both passes go through the same entries.  The index holds for each path the state
of the last entry of that path, if a whiteout has not removed it.  The second pass
holds the data of the last regular file of a path, if no later whiteout covers the
path.  So the two agree on a path exactly if its final entry is a regular file
exactly when some regular file of that path has no whiteout after it that covers
it.
-/

namespace Atum.Admission

open Atum.Go AssocList List

/-! ## Loops over the entries -/

section

variable {σ ι ε : Type} {f : σ → ι → Except ε σ}

/-- A loop over the layers and in it over their entries is a loop over all entries. -/
theorem foldlM_layers (layers : List (List ι)) (start : σ) :
    layers.foldlM (fun s layer => layer.foldlM f s) start = layers.flatten.foldlM f start := by
  induction layers generalizing start with
  | nil => rfl
  | cons layer layers ih =>
    rw [flatten_cons, foldlM_append]
    exact bind_congr ih

/-- A loop that returns keeps what each of its rounds keeps. -/
theorem foldlM_history {P : List ι → σ → Prop} {items : List ι}
    {start final : σ} (hrun : items.foldlM f start = .ok final) (hstart : P [] start)
    (hstep : ∀ before item s t, P before s → f s item = .ok t → P (before ++ [item]) t) :
    P items final := by
  have hfrom : ∀ (rest before : List ι) (s : σ), P before s → rest.foldlM f s = .ok final →
      P (before ++ rest) final := by
    intro rest
    induction rest with
    | nil =>
      intro before s hs hrun
      cases hrun
      rwa [append_nil]
    | cons item rest ih =>
      intro before s hs hrun
      obtain ⟨t, ht, hrun⟩ := bind_eq_ok.mp hrun
      have hrest := ih (before ++ [item]) t (hstep before item s t hs ht) hrun
      rwa [append_assoc, singleton_append] at hrest
  exact hfrom items [] start hstart hrun

end

/-! ## Entries of a path -/

/-- The entry puts something at the path. -/
def Entry.Places (entry : Entry) (path : String) : Prop :=
  entry.isWhiteout = false ∧ entry.path = path

/-- The entry is a whiteout that hides the path: an opaque marker in a directory
above it, or the removal of the path or of a directory above it. -/
def Entry.Covers (entry : Entry) (path : String) : Prop :=
  entry.isWhiteout = true ∧
    if base entry.path = ".wh..wh..opq" then
      Below (officialPathParent entry.path) path ∧ path ≠ officialPathParent entry.path
    else Below (joinPath [officialPathParent entry.path, trimPrefix (base entry.path) ".wh."]) path

instance (entry : Entry) (path : String) : Decidable (entry.Places path) :=
  inferInstanceAs (Decidable (_ ∧ _))

instance (entry : Entry) (path : String) : Decidable (entry.Covers path) :=
  inferInstanceAs (Decidable (_ ∧ _))

variable {entry : Entry}

theorem Entry.not_covers (h : entry.isWhiteout = false) (path : String) :
    ¬entry.Covers path := fun hcovers => absurd hcovers.1 (by simp [h])

/-- The last entry of a path. -/
def lastEntry (entries : List Entry) (path : String) : Option Entry :=
  (entries.filter fun entry => entry.Places path).getLast?

/-- The last regular file of a path. -/
def lastRegular (entries : List Entry) (path : String) : Option Entry :=
  (entries.filter fun entry => entry.Places path ∧ entry.isRegular).getLast?

/-- Some regular file of the path has no whiteout after it that covers the path. -/
def Readable (entries : List Entry) (path : String) : Prop :=
  ∃ before entry after, entries = before ++ entry :: after ∧ entry.Places path ∧
    entry.isRegular = true ∧ ∀ later ∈ after, ¬later.Covers path

section

variable {entries : List Entry} {entry : Entry} {path : String}

theorem lastEntry_concat (entries : List Entry) (entry : Entry) (path : String) :
    lastEntry (entries ++ [entry]) path =
      if entry.Places path then some entry else lastEntry entries path := by
  rw [lastEntry]
  by_cases h : entry.Places path
  · simp [h]
  · simp [h, lastEntry]

theorem lastRegular_concat (entries : List Entry) (entry : Entry) (path : String) :
    lastRegular (entries ++ [entry]) path =
      if entry.Places path ∧ entry.isRegular then some entry else lastRegular entries path := by
  rw [lastRegular, filter_append]
  by_cases h : entry.Places path ∧ entry.isRegular
  · simp [h]
  · simp only [filter_singleton, h, decide_false, Bool.cond_false, append_nil, if_false,
      lastRegular]

/-- If the last entry of a path is a regular file, it is the last one. -/
theorem lastRegular_of_lastEntry (hlast : lastEntry entries path = some entry)
    (hreg : entry.isRegular = true) : lastRegular entries path = some entry := by
  induction entries using List.reverseRecOn with
  | nil => cases hlast
  | append_singleton entries other ih =>
    rw [lastEntry_concat] at hlast
    rw [lastRegular_concat]
    split at hlast
    · next hplaces =>
      cases hlast
      rw [if_pos ⟨hplaces, hreg⟩]
    · next hplaces =>
      rw [if_neg fun h => hplaces h.1]
      exact ih hlast

theorem readable_concat (entries : List Entry) (entry : Entry) (path : String) :
    Readable (entries ++ [entry]) path ↔ (entry.Places path ∧ entry.isRegular = true) ∨
        (Readable entries path ∧ ¬entry.Covers path) := by
  constructor
  · intro ⟨before, found, after, hsplit, hplaces, hreg, hafter⟩
    rcases eq_nil_or_concat after with rfl | ⟨rest, last, rfl⟩
    · obtain ⟨-, heq⟩ := append_inj' hsplit rfl
      obtain rfl := singleton_inj.mp heq
      exact .inl ⟨hplaces, hreg⟩
    rw [concat_eq_append] at hsplit hafter
    have hassoc : before ++ found :: (rest ++ [last]) = (before ++ found :: rest) ++ [last] := by
      simp
    rw [hassoc] at hsplit
    obtain ⟨rfl, heq⟩ := append_inj' hsplit rfl
    obtain rfl := singleton_inj.mp heq
    refine .inr ⟨⟨before, found, rest, rfl, hplaces, hreg, fun later hlater => ?_⟩, ?_⟩
    · exact hafter later (by simp [hlater])
    · exact hafter entry (by simp)
  · rintro (⟨hplaces, hreg⟩ | ⟨⟨before, found, after, rfl, hplaces, hreg, hafter⟩, hcovers⟩)
    · exact ⟨entries, entry, [], rfl, hplaces, hreg, by simp⟩
    refine ⟨before, found, after ++ [entry], by simp, hplaces, hreg, fun later hlater => ?_⟩
    obtain hlater | hlater := mem_append.mp hlater
    · exact hafter later hlater
    · rw [mem_singleton.mp hlater]
      exact hcovers

theorem readable_lastRegular (h : Readable entries path) : ∃ entry, lastRegular entries path =
    some entry := by
  obtain ⟨before, found, after, rfl, hplaces, hreg, -⟩ := h
  have hmem : found ∈ (before ++ found :: after).filter fun entry =>
      entry.Places path ∧ entry.isRegular :=
    mem_filter.mpr ⟨by simp, by simp [hplaces, hreg]⟩
  exact ⟨_, List.getLast?_eq_some_getLast (ne_nil_of_mem hmem)⟩

end

/-! ## The first pass -/

namespace PathIndex

variable {index : PathIndex} {path : String} {state : PathState}

/-- A removal leaves the states that it does not remove. -/
theorem lookup_of_removeAll {stack : List String}
    (h : (index.removeAll stack).states.lookup path = some state) :
    index.states.lookup path = some state := by
  fun_induction removeAll index stack with
  | case1 index => exact h
  | case2 index current stack ih =>
    have hrest := ih h
    by_cases hpath : path = current
    · rw [hpath, lookup_erase_self] at hrest
      cases hrest
    · rwa [lookup_erase_of_ne hpath] at hrest

variable {root : String}

theorem lookup_of_removeSubtree (h : (index.removeSubtree root).states.lookup path = some state) :
    index.states.lookup path = some state := by
  have hstates := lookup_of_removeAll h
  exact hstates

theorem lookup_of_removeChildrenLoop {count : Nat}
    (h : (removeChildrenLoop root count index).states.lookup path = some state) :
    index.states.lookup path = some state := by
  induction count generalizing index with
  | zero => exact h
  | succ count ih =>
    rw [removeChildrenLoop] at h
    split at h
    · exact h
    · exact lookup_of_removeSubtree (ih h)

theorem lookup_of_whiteout {clean : String}
    (h : (index.whiteout clean).states.lookup path = some state) :
    index.states.lookup path = some state := by
  unfold whiteout at h
  split at h
  · exact lookup_of_removeChildrenLoop h
  · exact lookup_of_removeSubtree h

end PathIndex

variable {queries : List String} {walk : Walk}

/-- What an entry does to the index: it is the root, a whiteout, or it is put in. -/
theorem Walk.visit_cases {next : Walk} (h : walk.visit queries entry = .ok next) :
    ((entry.path = "" ∨ entry.path = ".") ∧ next.index = walk.index) ∨
    (entry.isWhiteout = true ∧ next.index = walk.index.whiteout entry.path) ∨
    (entry.isWhiteout = false ∧ ¬(entry.path = "" ∨ entry.path = ".") ∧ ∃ content,
      capture queries entry = .ok content ∧
      next.index = walk.index.set entry.path (entry.state content)) := by
  unfold Walk.visit at h
  simp only at h
  split at h
  · cases h
  split at h
  · next hroot =>
    cases h
    exact .inl ⟨hroot, rfl⟩
  next hroot =>
  split at h
  · next hwhiteout =>
    cases h
    exact .inr (.inl ⟨hwhiteout, by dsimp only⟩)
  next hwhiteout =>
  obtain ⟨content, hcont, h⟩ := bind_eq_ok.mp h
  split at h
  · cases h
  · cases h
    exact .inr (.inr ⟨Bool.eq_false_iff.mpr hwhiteout, hroot, content, hcont, rfl⟩)

/-- The index holds states of the last entries of their paths. -/
def Indexed (queries : List String) (entries : List Entry) (index : PathIndex) : Prop :=
  ∀ path state, index.states.lookup path = some state → ¬(path = "" ∨ path = ".") ∧
    ∃ entry content, lastEntry entries path = some entry ∧ capture queries entry = .ok content ∧
      state = entry.state content

variable {entries : List Entry}

theorem Walk.visit_indexed {next : Walk} (h : Indexed queries entries walk.index)
    (hvisit : walk.visit queries entry = .ok next) :
    Indexed queries (entries ++ [entry]) next.index := by
  -- An entry that puts nothing at a path does not change the last entry of it.
  have hkeep : ∀ path state, walk.index.states.lookup path = some state → ¬entry.Places path →
      ¬(path = "" ∨ path = ".") ∧ ∃ found content,
        lastEntry (entries ++ [entry]) path = some found ∧ capture queries found = .ok content ∧
        state = found.state content := by
    intro path state hstate hplaces
    rw [lastEntry_concat, if_neg hplaces]
    exact h path state hstate
  intro path state hstate
  obtain ⟨hroot, hidx⟩ | ⟨hwhiteout, hidx⟩ | ⟨hplain, hroot, content, hcont, hidx⟩ :=
    Walk.visit_cases hvisit
  · rw [hidx] at hstate
    refine hkeep path state hstate fun hplaces => ?_
    exact (h path state hstate).1 (hplaces.2 ▸ hroot)
  · rw [hidx] at hstate
    refine hkeep path state (PathIndex.lookup_of_whiteout hstate) fun hplaces => ?_
    exact absurd hplaces.1 (by simp [hwhiteout])
  rw [hidx, PathIndex.set] at hstate
  by_cases hpath : path = entry.path
  · subst hpath
    rw [lookup_put_self] at hstate
    refine ⟨hroot, entry, content, ?_, hcont, (Option.some.inj hstate).symm⟩
    rw [lastEntry_concat, if_pos ⟨hplain, rfl⟩]
  · rw [lookup_put_of_ne hpath] at hstate
    exact hkeep path state hstate fun hplaces => hpath hplaces.2.symm

variable {index : PathIndex} {layers : List (List Entry)}

theorem indexLayers_indexed
    (h : indexLayers queries layers = .ok index) : Indexed queries layers.flatten index := by
  obtain ⟨walk, hwalk, h⟩ := bind_eq_ok.mp h
  cases h
  rw [foldlM_layers] at hwalk
  refine foldlM_history (P := fun entries (walk : Walk) => Indexed queries entries walk.index) hwalk
    (fun path state hstate => nomatch hstate) fun before entry s t => Walk.visit_indexed

/-! ## The second pass -/

variable {names : List String} (h : ∀ name ∈ names, PlainName name)

include h in
theorem officialPathParent_pathText :
    officialPathParent (pathText names) = pathText names.dropLast := by
  rcases eq_nil_or_concat names with rfl | ⟨before, name, rfl⟩
  · decide
  rw [concat_eq_append] at h ⊢
  rw [officialPathParent, pathText, dir_join h, dropLast_concat]
  by_cases hnil : before = []
  · subst hnil
    rfl
  have hbefore : ∀ other ∈ before, PlainName other := fun other hother => h other (by simp [hother])
  have hdot : join before "/" ≠ "." := by
    intro hdot
    have hsplit := split_pathText hnil hbefore
    rw [pathText, hdot] at hsplit
    exact (hbefore "." (hsplit ▸ mem_singleton_self _)).2.1 rfl
  rw [if_neg hnil, if_neg hdot, pathText]

variable {directory : String}

include h in
/-- The loop over the ancestors of a path goes through its initial parts. -/
theorem mem_ancestorsFrom {count : Nat}
    (hcount : names.length < count) : directory ∈ ancestorsFrom count (pathText names) ↔
      ∃ above rest, names = above ++ rest ∧ directory = pathText above := by
  induction count generalizing names with
  | zero => omega
  | succ count ih =>
    rw [ancestorsFrom, mem_cons]
    rcases eq_nil_or_concat names with rfl | ⟨before, name, rfl⟩
    · constructor
      · intro hmem
        exact ⟨[], [], rfl, hmem.resolve_right not_mem_nil⟩
      · rintro ⟨above, rest, hsplit, rfl⟩
        obtain ⟨rfl, -⟩ := append_eq_nil_iff.mp hsplit.symm
        exact .inl rfl
    rw [concat_eq_append] at h hcount ⊢
    have hbefore : ∀ other ∈ before, PlainName other :=
      fun other hother => h other (by simp [hother])
    have hlen : before.length < count := by
      rw [length_append, length_singleton] at hcount
      omega
    rw [if_neg (pathText_ne_empty (by simp) h), officialPathParent_pathText h,
      dropLast_concat, ih hbefore hlen]
    constructor
    · rintro (rfl | ⟨above, rest, rfl, rfl⟩)
      · exact ⟨before ++ [name], [], by simp, rfl⟩
      · exact ⟨above, rest ++ [name], by simp, rfl⟩
    rintro ⟨above, rest, hsplit, rfl⟩
    rcases eq_nil_or_concat rest with rfl | ⟨middle, last, rfl⟩
    · rw [append_nil] at hsplit
      exact .inl (by rw [hsplit])
    · rw [concat_eq_append, ← append_assoc] at hsplit
      obtain ⟨rfl, -⟩ := append_inj' hsplit rfl
      exact .inr ⟨above, middle, rfl, rfl⟩

include h in
theorem mem_ancestors :
    directory ∈ ancestors (pathText names) ↔ Below directory (pathText names) := by
  have hlen : names.length < (split (pathText names) '/').length + 1 := by
    by_cases hnil : names = []
    · subst hnil
      exact Nat.succ_pos _
    · rw [split_pathText hnil h]
      exact Nat.lt_succ_self _
  rw [ancestors, mem_ancestorsFrom h hlen, below_pathText_iff h]

theorem lookup_foldl_erase (contents : List (String × List UInt8)) (paths : List String)
    (path : String) : (paths.foldl erase contents).lookup path =
      if path ∈ paths then none else contents.lookup path := by
  induction paths generalizing contents with
  | nil => rfl
  | cons first paths ih =>
    rw [foldl_cons, ih]
    by_cases hfirst : path = first
    · subst hfirst
      simp
    · rw [lookup_erase_of_ne hfirst]
      simp [hfirst]

variable {requested : List String} {contents : List (String × List UInt8)}

include h in
/-- A whiteout withdraws the contents of the requested paths that it covers. -/
theorem lookup_withdraw
    (hrequested : pathText names ∈ requested) (hwhiteout : entry.isWhiteout = true) :
    (withdraw requested contents entry.path).lookup (pathText names) =
      if entry.Covers (pathText names) then none else contents.lookup (pathText names) := by
  unfold withdraw
  split
  · next hopaque =>
    have hcovers : entry.Covers (pathText names) ↔
        pathText names ∈ (indexRequestedSubtrees requested (officialPathParent entry.path)).filter
          (· ≠ officialPathParent entry.path) := by
      simp [Entry.Covers, hwhiteout, hopaque, indexRequestedSubtrees, hrequested, mem_ancestors h,
        and_comm]
    rw [lookup_foldl_erase]
    simp only [hcovers]
  next hremoval =>
  have hcovers : entry.Covers (pathText names) ↔ pathText names ∈ indexRequestedSubtrees requested
      (joinPath [officialPathParent entry.path, trimPrefix (base entry.path) ".wh."]) := by
    simp [Entry.Covers, hwhiteout, hremoval, indexRequestedSubtrees, hrequested, mem_ancestors h]
  rw [lookup_foldl_erase]
  simp only [hcovers]

variable {content : List UInt8}

theorem readContent_eq_ok (h : readContent entry = .ok content) : content = entry.data := by
  unfold readContent at h
  simp only at h
  split at h
  · cases h
  split at h
  · cases h
  next hlen =>
  cases h
  rw [length_take] at hlen
  exact take_of_length_le (by omega)

variable {reading next : Reading}

/-- What an entry does to the contents. -/
theorem Reading.visit_cases
    (h : reading.visit requested entry = .ok next) : (entry.isWhiteout = true ∧
      next.contents = withdraw requested reading.contents entry.path) ∨
    (entry.isWhiteout = false ∧ entry.path ∈ requested ∧ entry.isRegular = true ∧
      next.contents = put reading.contents entry.path entry.data) ∨
    (entry.isWhiteout = false ∧ ¬(entry.path ∈ requested ∧ entry.isRegular = true) ∧
      next.contents = reading.contents) := by
  unfold Reading.visit at h
  simp only at h
  split at h
  · cases h
  split at h
  · next hwhiteout =>
    cases h
    exact .inl ⟨hwhiteout, by dsimp only⟩
  next hwhiteout =>
  have hplain := Bool.eq_false_iff.mpr hwhiteout
  split at h
  · next hwanted =>
    obtain ⟨content, hcont, h⟩ := bind_eq_ok.mp h
    obtain rfl := readContent_eq_ok hcont
    cases h
    exact .inr (.inl ⟨hplain, hwanted.1, hwanted.2, rfl⟩)
  · next hwanted =>
    cases h
    exact .inr (.inr ⟨hplain, hwanted, rfl⟩)

/-- The contents that the second pass has gathered. -/
structure Gathered (requested : List String) (entries : List Entry)
    (contents : List (String × List UInt8)) : Prop where
  wanted : ∀ path content, contents.lookup path = some content → path ∈ requested
  data : ∀ names : List String, (∀ name ∈ names, PlainName name) → pathText names ∈ requested →
    ∀ content, contents.lookup (pathText names) = some content ↔
      Readable entries (pathText names) ∧
        ∃ entry, lastRegular entries (pathText names) = some entry ∧ content = entry.data

variable {path : String}

theorem lookup_withdraw_some {clean : String}
    (h : (withdraw requested contents clean).lookup path = some content) :
    contents.lookup path = some content := by
  unfold withdraw at h
  split at h <;>
  · rw [lookup_foldl_erase] at h
    split at h
    · cases h
    · exact h

theorem Reading.visit_gathered (h : Gathered requested entries reading.contents)
    (hvisit : reading.visit requested entry = .ok next) :
    Gathered requested (entries ++ [entry]) next.contents := by
  obtain ⟨hwhiteout, hnext⟩ | ⟨hplain, hrequested, hreg, hnext⟩ | ⟨hplain, hother, hnext⟩ :=
    Reading.visit_cases hvisit
  · refine ⟨fun path content hcont => ?_, fun names hnames hpath content => ?_⟩
    · rw [hnext] at hcont
      exact h.wanted path content (lookup_withdraw_some hcont)
    have hplaces : ¬(entry.Places (pathText names) ∧ entry.isRegular = true) := by
      intro hplaces
      exact absurd hplaces.1.1 (by simp [hwhiteout])
    rw [hnext, lookup_withdraw hnames hpath hwhiteout, readable_concat, lastRegular_concat,
      if_neg hplaces]
    by_cases hcovers : entry.Covers (pathText names)
    · simp [hcovers, hplaces]
    · simp only [hcovers, if_false, hplaces, false_or, not_false_iff, and_true]
      exact h.data names hnames hpath content
  · have hcovers : ∀ path, ¬entry.Covers path := fun path => Entry.not_covers hplain path
    refine ⟨fun path content hcont => ?_, fun names hnames hpath content => ?_⟩
    · rw [hnext] at hcont
      by_cases heq : path = entry.path
      · exact heq ▸ hrequested
      · rw [lookup_put_of_ne heq] at hcont
        exact h.wanted path content hcont
    rw [hnext, readable_concat, lastRegular_concat]
    by_cases heq : pathText names = entry.path
    · have hplaces : entry.Places (pathText names) ∧ entry.isRegular = true :=
        ⟨⟨hplain, heq.symm⟩, hreg⟩
      rw [← heq]
      simp [hplaces, eq_comm]
    have hplaces : ¬(entry.Places (pathText names) ∧ entry.isRegular = true) :=
      fun hplaces => heq hplaces.1.2.symm
    rw [lookup_put_of_ne heq, h.data names hnames hpath content]
    simp [hplaces, hcovers]
  · have hcovers : ∀ path, ¬entry.Covers path := fun path => Entry.not_covers hplain path
    refine ⟨fun path content hcont => ?_, fun names hnames hpath content => ?_⟩
    · rw [hnext] at hcont
      exact h.wanted path content hcont
    have hplaces : ¬(entry.Places (pathText names) ∧ entry.isRegular = true) := by
      rintro ⟨⟨-, heq⟩, hreg⟩
      exact hother ⟨heq ▸ hpath, hreg⟩
    rw [hnext, readable_concat, lastRegular_concat, h.data names hnames hpath content]
    simp [hplaces, hcovers]

theorem readOfficialFileContents_gathered
    (h : readOfficialFileContents layers requested = .ok contents) :
    Gathered requested layers.flatten contents := by
  obtain ⟨reading, hreading, h⟩ := bind_eq_ok.mp h
  cases h
  rw [foldlM_layers] at hreading
  refine foldlM_history (P := fun entries (reading : Reading) =>
    Gathered requested entries reading.contents) hreading ?_ fun before entry s t =>
      Reading.visit_gathered
  refine ⟨fun path content hcont => (nomatch hcont), fun names _ _ content => ?_⟩
  refine iff_of_false (fun hcont => nomatch hcont) ?_
  rintro ⟨⟨before, entry, after, hsplit, -⟩, -⟩
  simp at hsplit

/-! ## The inspection -/

def PathState.isRegular (state : PathState) : Bool := state.kind = typeReg || state.kind = typeRegA

/-- A state with a resolved path is the stored state of that path, but for its link
text. -/
def IsStored (index : PathIndex) (state : PathState) : Prop :=
  ∃ stored, index.states.lookup state.resolved = some stored ∧
    state = { stored with resolved := state.resolved, link := state.link }

theorem throughLink_resolved {linkPath target : String} {last : Bool} {state result : PathState}
    {outcome : Except LinkError PathState}
    (h : throughLink linkPath target last state outcome = .ok result)
    (hres : result.resolved ≠ "") :
    ∃ found, outcome = .ok found ∧ result = { found with link := state.link } := by
  unfold throughLink at h
  split at h
  · cases h
  next found =>
  split at h
  · split at h
    · cases h
      exact absurd rfl hres
    · cases h
  · exact ⟨found, rfl, (Except.ok.inj h).symm⟩

variable {state : PathState}

theorem resolveFrom_stored {left : Nat} {current : String} {visited : List String}
    (h : resolveFrom index left current visited = .ok state)
    (hres : state.resolved ≠ "") : IsStored index state := by
  induction left generalizing current visited state with
  | zero => cases h
  | succ left ih =>
    rw [resolveFrom] at h
    split at h
    · cases h
    split at h
    · -- A path without links: only a stored state has a resolved path.
      cases h
      unfold storedState at hres ⊢
      split at hres
      · next stored hstored => exact ⟨stored, hstored, rfl⟩
      · split at hres <;> exact absurd rfl hres
    split at h
    · cases h
    obtain ⟨found, hfound, rfl⟩ := throughLink_resolved h hres
    obtain ⟨stored, hstored, heq⟩ := ih hfound hres
    refine ⟨stored, hstored, ?_⟩
    rw [heq]

theorem resolveRequired_eq_ok {required : String} : resolveRequired index required = .ok state ↔
      resolveOfficialPath index (cleanPath required) = .ok state := by
  unfold resolveRequired
  split <;> simp_all

theorem capture_eq_ok {content : Option (List UInt8)} (h : capture queries entry = .ok content) :
    content = if entry.path ∈ queries ∧ entry.isRegular then some entry.data else none := by
  unfold capture at h
  split at h
  · next hwanted =>
    obtain ⟨data, hdata, h⟩ := bind_eq_ok.mp h
    obtain rfl := readContent_eq_ok hdata
    rw [if_pos hwanted]
    exact (Except.ok.inj h).symm
  · next hwanted =>
    rw [if_neg hwanted]
    exact (Except.ok.inj h).symm

theorem lastEntry_places (h : lastEntry entries path = some entry) : entry.Places path := by
  have hmem := mem_of_getLast? h
  exact of_decide_eq_true (mem_filter.mp hmem).2

/-- What the first pass knows of a stored state. -/
structure FirstPass (queries : List String) (entries : List Entry) (state : PathState) : Prop where
  present : state.present = true
  clean : ∃ names, (∀ name ∈ names, PlainName name) ∧ state.resolved = pathText names
  known : state.contentKnown = true ↔ state.isRegular = true ∧ state.resolved ∈ queries
  content : state.contentKnown = true →
    ∃ entry, lastRegular entries state.resolved = some entry ∧ state.content = entry.data
  nothing : state.contentKnown = false → state.content = []

theorem IsStored.firstPass (h : IsStored index state) (hindexed : Indexed queries entries index) :
    FirstPass queries entries state := by
  obtain ⟨stored, hstored, heq⟩ := h
  obtain ⟨-, entry, content, hlast, hcapture, rfl⟩ := hindexed _ stored hstored
  obtain ⟨-, hpath⟩ := lastEntry_places hlast
  have hcont := capture_eq_ok hcapture
  have hknown : state.contentKnown = true ↔ entry.path ∈ queries ∧ entry.isRegular = true := by
    rw [heq, hcont]
    by_cases hwanted : entry.path ∈ queries ∧ entry.isRegular = true <;> simp [Entry.state, hwanted]
  have hreg : state.isRegular = entry.isRegular := by rw [heq]; rfl
  have hdata : state.content = content.getD [] := by rw [heq]; rfl
  refine ⟨by rw [heq]; rfl, ?_, ?_, fun hyes => ?_, fun hno => ?_⟩
  · refine ⟨normalise (split entry.name '/'), plainName_normalise_split entry.name, ?_⟩
    rw [← hpath, Entry.path, cleanPath_eq]
  · rw [hknown, hreg, hpath, and_comm]
  · obtain ⟨hqueried, hfile⟩ := hknown.mp hyes
    refine ⟨entry, lastRegular_of_lastEntry hlast hfile, ?_⟩
    rw [hdata, hcont, if_pos ⟨hqueried, hfile⟩, Option.getD_some]
  have hnot : ¬(entry.path ∈ queries ∧ entry.isRegular = true) := by
    rw [← hknown, hno]
    exact Bool.false_ne_true
  rw [hdata, hcont, if_neg hnot, Option.getD_none]

theorem attach_resolved (contents : List (String × List UInt8)) (state : PathState) :
    (attach contents state).resolved = state.resolved ∧
      (attach contents state).isRegular = state.isRegular := by
  unfold attach
  split <;> exact ⟨rfl, rfl⟩

/-- How an inspection that returns comes to its result: the states of the required
paths get what the second pass gathered for the missing entries. -/
structure Inspected (entries : List Entry) (requiredPaths queries : List String) (index : PathIndex)
    (result : List (String × PathState)) (missing : List String)
    (contents : List (String × List UInt8)) : Prop where
  indexed : Indexed queries entries index
  gathered : Gathered missing entries contents
  missing : ∀ path, path ∈ missing ↔ ∃ required ∈ requiredPaths, ∃ state,
    resolveOfficialPath index (cleanPath required) = .ok state ∧
      missingContent queries required state = some path
  result : ∀ required state, (required, state) ∈ result ↔ required ∈ requiredPaths ∧ ∃ found,
    resolveOfficialPath index (cleanPath required) = .ok found ∧ state = attach contents found

theorem inspect_inspected {requiredPaths contentPaths : List String}
    {result : List (String × PathState)}
    (hidx : indexLayers (contentQueries contentPaths) layers = .ok index)
    (h : inspectOfficialFilesystem layers requiredPaths contentPaths = .ok result) :
    ∃ missing contents, Inspected layers.flatten requiredPaths (contentQueries contentPaths) index
      result missing contents := by
  obtain ⟨index', hidx', h⟩ := bind_eq_ok.mp h
  obtain rfl : index' = index := Except.ok.inj (hidx'.symm.trans hidx)
  obtain ⟨states, hstates, h⟩ := bind_eq_ok.mp h
  have hmem : ∀ required state, (required, state) ∈ states ↔
      required ∈ requiredPaths ∧ resolveOfficialPath index' (cleanPath required) = .ok state := by
    intro required state
    obtain ⟨hfrom, hto⟩ := mapM_ok hstates
    constructor
    · intro hpair
      obtain ⟨other, hother, hrun⟩ := hfrom _ hpair
      obtain ⟨found, hfound, hrun⟩ := bind_eq_ok.mp hrun
      cases hrun
      exact ⟨hother, resolveRequired_eq_ok.mp hfound⟩
    rintro ⟨hreq, hstate⟩
    obtain ⟨pair, hpair, hrun⟩ := hto required hreq
    obtain ⟨found, hfound, hrun⟩ := bind_eq_ok.mp hrun
    cases hrun
    rw [resolveRequired_eq_ok.mpr hstate] at hfound
    cases hfound
    exact hpair
  simp only at h
  generalize hlist : states.filterMap _ = missing at h
  have hmiss : ∀ path, path ∈ missing ↔ ∃ required ∈ requiredPaths,
      ∃ state, resolveOfficialPath index' (cleanPath required) = .ok state ∧
        missingContent (contentQueries contentPaths) required state = some path := by
    intro path
    rw [← hlist, mem_filterMap]
    constructor
    · rintro ⟨⟨required, state⟩, hpair, hpath⟩
      obtain ⟨hreq, hstate⟩ := (hmem required state).mp hpair
      exact ⟨required, hreq, state, hstate, hpath⟩
    · rintro ⟨required, hreq, state, hstate, hpath⟩
      exact ⟨(required, state), (hmem required state).mpr ⟨hreq, hstate⟩, hpath⟩
  split at h
  · next hnone =>
    rw [hnone] at hmiss
    cases h
    have hgathered : Gathered [] layers.flatten [] :=
      ⟨fun path content hcont => by simp at hcont, fun names _ hpath => by simp at hpath⟩
    refine ⟨[], [], indexLayers_indexed hidx, hgathered, hmiss, fun required state => ?_⟩
    · rw [hmem]
      constructor
      · rintro ⟨hreq, hstate⟩
        exact ⟨hreq, state, hstate, rfl⟩
      · rintro ⟨hreq, found, hfound, rfl⟩
        exact ⟨hreq, hfound⟩
  · obtain ⟨contents, hconts, h⟩ := bind_eq_ok.mp h
    cases h
    refine ⟨_, contents, indexLayers_indexed hidx, readOfficialFileContents_gathered hconts,
      hmiss, fun required state => ?_⟩
    rw [mem_map]
    constructor
    · rintro ⟨⟨other, found⟩, hpair, heq⟩
      obtain ⟨rfl, rfl⟩ := Prod.mk.inj heq
      obtain ⟨hreq, hfound⟩ := (hmem other found).mp hpair
      exact ⟨hreq, found, hfound, rfl⟩
    · rintro ⟨hreq, found, hfound, rfl⟩
      exact ⟨(required, found), (hmem required found).mpr ⟨hreq, hfound⟩, rfl⟩

namespace Inspected

variable {entries : List Entry} {requiredPaths queries : List String} {index : PathIndex}
  {result : List (String × PathState)} {missing : List String}
  {contents : List (String × List UInt8)} {required : String} {state : PathState}

theorem firstPass (h : Inspected entries requiredPaths queries index result missing contents)
    (hstate : resolveOfficialPath index (cleanPath required) = .ok state)
    (hres : state.resolved ≠ "") : FirstPass queries entries state :=
  (resolveFrom_stored hstate hres).firstPass h.indexed

/-- The entry of a wanted path is read again unless the first pass kept its content. -/
theorem mem_missing (h : Inspected entries requiredPaths queries index result missing contents)
    (hreq : required ∈ requiredPaths) (hqueried : cleanPath required ∈ queries)
    (hstate : resolveOfficialPath index (cleanPath required) = .ok state)
    (hres : state.resolved ≠ "") (hunknown : state.contentKnown = false) :
    state.resolved ∈ missing := by
  refine (h.missing _).mpr ⟨required, hreq, state, hstate, if_pos ?_⟩
  exact ⟨hqueried, (h.firstPass hstate hres).present, by simp [hunknown], hres⟩

/-- An entry that is read again is the entry of a wanted path, and its content was
not kept. -/
theorem of_mem_missing (h : Inspected entries requiredPaths queries index result missing contents)
    (hstate : resolveOfficialPath index (cleanPath required) = .ok state)
    (hres : state.resolved ≠ "") (hmiss : state.resolved ∈ missing) :
    state.contentKnown = false ∧ ∃ other ∈ requiredPaths, cleanPath other ∈ queries ∧ ∃ found,
      resolveOfficialPath index (cleanPath other) = .ok found ∧ found.resolved = state.resolved ∧
      found.isRegular = state.isRegular := by
  obtain ⟨other, hother, found, hfound, hpath⟩ := (h.missing _).mp hmiss
  unfold missingContent at hpath
  split at hpath
  · next hwanted =>
    have hsame : found.resolved = state.resolved := Option.some.inj hpath
    obtain ⟨stored, hstored, heq⟩ := resolveFrom_stored hstate hres
    obtain ⟨stored', hstored', heq'⟩ := resolveFrom_stored hfound (hsame ▸ hres)
    rw [hsame, hstored] at hstored'
    cases hstored'
    refine ⟨?_, other, hother, hwanted.1, found, hfound, hsame, ?_⟩
    · have hunknown : found.contentKnown = false := by simpa using hwanted.2.2.1
      rw [heq'] at hunknown
      rw [heq]
      exact hunknown
    · rw [heq, heq']
      rfl
  · cases hpath

/-- What the second pass has for an entry. -/
theorem lookup_iff (h : Inspected entries requiredPaths queries index result missing contents)
    (hstate : resolveOfficialPath index (cleanPath required) = .ok state)
    (hres : state.resolved ≠ "") (hmiss : state.resolved ∈ missing) (content : List UInt8) :
    contents.lookup state.resolved = some content ↔ Readable entries state.resolved ∧
      ∃ entry, lastRegular entries state.resolved = some entry ∧ content = entry.data := by
  obtain ⟨names, hnames, hpath⟩ := (h.firstPass hstate hres).clean
  rw [hpath] at hmiss ⊢
  exact h.gathered.data names hnames hmiss content

/-- Bytes that a state has in the end are those of the last regular file. -/
theorem attached (h : Inspected entries requiredPaths queries index result missing contents)
    (hstate : resolveOfficialPath index (cleanPath required) = .ok state)
    (hres : state.resolved ≠ "") (hknown : (attach contents state).contentKnown = true) :
    ∃ entry, lastRegular entries state.resolved = some entry ∧
      (attach contents state).content = entry.data := by
  unfold attach at hknown ⊢
  split at hknown
  · next content hcontent =>
    have hmissing := h.gathered.wanted _ _ hcontent
    exact ((h.lookup_iff hstate hres hmissing content).mp hcontent).2
  · exact (h.firstPass hstate hres).content hknown

end Inspected

def sampleFile (name : String) : Entry := { name, typeflag := typeReg, size := 1, data := [0x78] }

def sampleDirectory (name : String) : Entry := { name, typeflag := typeDir, size := 0, data := [] }

def sampleLink (name target : String) : Entry :=
  { name, typeflag := typeSymlink, linkname := target, size := 0, data := [] }

end Atum.Admission
