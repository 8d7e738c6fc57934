import Mathlib.Data.List.Infix
import Mathlib.Logic.Relation

/-!
# Paths and symbolic links

A disk maps locations to what is there.  A location is the list of names from the
root of the disk, and it names one thing only.  A path is a list of components
that is walked from a directory: a component may be `..`, and a name on the way
may be a link, whose target is then walked in its place from the directory that
holds the link.

`Step` is one component of such a walk without any bound on the links.  `walk` is
the walk of a system call, which gives up after too many links.  `make` and
`mkdirAll` place things where a walk leads.

A walk stays below a directory if no `..` on the way climbs out of a link or out
of the directory itself.  `climb` looks at the text of a path for the second, and `Clear`
says the first.  `confined_of_links` says that it is enough if both hold for the target of
every link.
-/

namespace PathWalk

open List

/-- What a location holds.  `δ` is the content of a regular file. -/
inductive Entry (δ : Type) where
  | directory
  | regular (mode : Nat) (data : δ)
  /-- A link with the components of its target. -/
  | link (rooted : Bool) (target : List String)
  deriving DecidableEq, Repr

/-- What is at each location. -/
abbrev Disk (δ : Type) := List String → Option (Entry δ)

/-- Why a call failed. -/
inductive Failure where
  | notExist
  | alreadyExists
  | notDirectory
  | tooManyLinks
  deriving DecidableEq, Repr

def Failure.text : Failure → String
  | .notExist => "no such file or directory"
  | .alreadyExists => "file exists"
  | .notDirectory => "not a directory"
  | .tooManyLinks => "too many levels of symbolic links"

/-- A component that a directory can hold. -/
def Named (component : String) : Prop := component ≠ "" ∧ component ≠ "." ∧ component ≠ ".."

/-! ## Walks -/

/-- A walk that has come to a directory and still has components to go. -/
structure Place where
  directory : List String
  rest : List String

/-- One component of a walk. -/
inductive Step {δ : Type} (disk : Disk δ) : Place → Place → Prop where
  | stay {directory rest : List String} {component : String}
      (h : component = "" ∨ component = ".") :
      Step disk ⟨directory, component :: rest⟩ ⟨directory, rest⟩
  | up {directory rest : List String} :
      Step disk ⟨directory, ".." :: rest⟩ ⟨directory.dropLast, rest⟩
  | enter {directory rest : List String} {component : String} (hname : Named component)
      (h : disk (directory ++ [component]) = some .directory) :
      Step disk ⟨directory, component :: rest⟩ ⟨directory ++ [component], rest⟩
  | follow {directory rest target : List String} {component : String} (hname : Named component)
      (h : disk (directory ++ [component]) = some (.link false target)) :
      Step disk ⟨directory, component :: rest⟩ ⟨directory, target ++ rest⟩
  | restart {directory rest target : List String} {component : String} (hname : Named component)
      (h : disk (directory ++ [component]) = some (.link true target)) :
      Step disk ⟨directory, component :: rest⟩ ⟨[], target ++ rest⟩

/-- The walk of a path from a directory never leaves this directory. -/
def Confined {δ : Type} (disk : Disk δ) (root path : List String) : Prop :=
  ∀ place, Relation.ReflTransGen (Step disk) ⟨root, path⟩ place → root <+: place.directory

section Calls

variable {δ : Type}

/-- The walk up to the first link, which `next` goes on with. -/
def visit (disk : Disk δ) (next : Place → Except Failure (List String)) :
    List String → List String → Except Failure (List String)
  | directory, [] => .ok directory
  | directory, component :: rest =>
    if component = "" ∨ component = "." then visit disk next directory rest
    else if component = ".." then visit disk next directory.dropLast rest
    else
      match disk (directory ++ [component]) with
      | none => .error .notExist
      | some .directory => visit disk next (directory ++ [component]) rest
      | some (.regular _ _) =>
        if rest = [] then .ok (directory ++ [component]) else .error .notDirectory
      | some (.link rooted target) =>
        next ⟨if rooted then [] else directory, target ++ rest⟩

/-- The location that a path leads to over at most `links` links. -/
def walk (disk : Disk δ) : Nat → Place → Except Failure (List String)
  | 0, place => visit disk (fun _ => .error .tooManyLinks) place.directory place.rest
  | links + 1, place => visit disk (walk disk links) place.directory place.rest

/-- The number of links that a system call follows. -/
def maxLinks : Nat := 40

/-- What a path leads to. -/
def stat (disk : Disk δ) (path : List String) : Except Failure (Entry δ) :=
  match walk disk maxLinks ⟨[], path⟩ with
  | .error failure => .error failure
  | .ok location =>
    match disk location with
    | none => .error .notExist
    | some entry => .ok entry

/-- The location of the last name of a path, which is not followed. -/
def locate (disk : Disk δ) (path : List String) : Except Failure (List String) :=
  match path.getLast? with
  | none => .ok []
  | some name =>
    match walk disk maxLinks ⟨[], path.dropLast⟩ with
    | .error failure => .error failure
    | .ok directory =>
      match disk directory with
      | some .directory => .ok (directory ++ [name])
      | _ => .error .notDirectory

/-- Put an entry where a path leads, if there is nothing yet. -/
def make (disk : Disk δ) (path : List String) (entry : Entry δ) : Except Failure (Disk δ) :=
  match locate disk path with
  | .error failure => .error failure
  | .ok location =>
    if (disk location).isSome then .error .alreadyExists
    else .ok fun other => if other = location then some entry else disk other

/-- Make the directory of a path, given with its last component first, and those
above it. -/
def mkdirUp (disk : Disk δ) : List String → Except Failure (Disk δ)
  | [] => .ok disk
  | name :: above =>
    match stat disk (name :: above).reverse with
    | .ok .directory => .ok disk
    | .ok _ => .error .notDirectory
    | .error _ =>
      match mkdirUp disk above with
      | .error failure => .error failure
      | .ok disk => make disk (name :: above).reverse .directory

/-- Make the directory of a path and those above it. -/
def mkdirAll (disk : Disk δ) (path : List String) : Except Failure (Disk δ) :=
  mkdirUp disk path.reverse

end Calls

/-! ## What the calls do -/

section Changes

variable {δ : Type} {disk disk' : Disk δ} {location : List String}

variable {path : List String}

/-- A location that a call can put an entry at lies in a directory. -/
theorem locate_ok (hne : path ≠ []) (h : locate disk path = .ok location) :
    ∃ directory, walk disk maxLinks ⟨[], path.dropLast⟩ = .ok directory ∧
      disk directory = some .directory ∧ location = directory ++ [path.getLast hne] := by
  rw [locate, List.getLast?_eq_some_getLast hne] at h
  dsimp only at h
  split at h
  · cases h
  next directory hwalk =>
  split at h
  · next hdir => exact ⟨directory, hwalk, hdir, (Except.ok.inj h).symm⟩
  · cases h

variable {entry : Entry δ}

/-- What a call that puts an entry does. -/
theorem make_ok (h : make disk path entry = .ok disk') :
    ∃ location, locate disk path = .ok location ∧ disk location = none ∧
      ∀ other, disk' other = if other = location then some entry else disk other := by
  unfold make at h
  split at h
  · cases h
  next location hloc =>
  split at h
  · cases h
  · next hnone =>
    cases h
    exact ⟨location, hloc, Option.not_isSome_iff_eq_none.mp hnone, fun _ => rfl⟩

/-- What is there stays there. -/
theorem get_make {other : List String} {old : Entry δ}
    (h : make disk path entry = .ok disk') (hold : disk other = some old) :
    disk' other = some old := by
  obtain ⟨location, -, hnone, hdisk⟩ := make_ok h
  rw [hdisk, if_neg, hold]
  rintro rfl
  rw [hnone] at hold
  cases hold

/-- The second disk has more directories than the first one. -/
def Grows (disk disk' : Disk δ) : Prop :=
  ∀ location, disk' location = disk location ∨
    disk location = none ∧ disk' location = some .directory

theorem Grows.get_of_some (h : Grows disk disk')
    (hent : disk location = some entry) : disk' location = some entry := by
  rcases h location with heq | ⟨hnone, -⟩
  · rw [heq, hent]
  · rw [hnone] at hent
    cases hent

theorem Grows.get_of_link {target : List String} {rooted : Bool} (h : Grows disk disk')
    (hlink : disk' location = some (.link rooted target)) :
    disk location = some (.link rooted target) := by
  rcases h location with heq | ⟨-, hdir⟩
  · rw [← heq, hlink]
  · rw [hdir] at hlink
    cases hlink

theorem grows_make (h : make disk path .directory = .ok disk') : Grows disk disk' := by
  obtain ⟨location, -, hnone, hdisk⟩ := make_ok h
  intro other
  rw [hdisk]
  split
  · next heq => exact .inr ⟨heq ▸ hnone, rfl⟩
  · exact .inl rfl

theorem grows_mkdirUp : ∀ {path : List String} {disk' : Disk δ},
    mkdirUp disk path = .ok disk' → Grows disk disk' := by
  intro path
  induction path with
  | nil =>
    intro disk' h
    cases h
    exact fun _ => .inl rfl
  | cons name above ih =>
    intro disk' h
    rw [mkdirUp] at h
    split at h
    · cases h
      exact fun _ => .inl rfl
    · cases h
    split at h
    · cases h
    next between hbetween =>
    have hmake := grows_make h
    intro location
    rcases ih hbetween location with heq | ⟨hnone, hdir⟩
    · rw [← heq]
      exact hmake location
    · exact .inr ⟨hnone, hmake.get_of_some hdir⟩

theorem grows_mkdirAll (h : mkdirAll disk path = .ok disk') : Grows disk disk' := grows_mkdirUp h

/-- Below a directory there are names only. -/
def Tidy (disk : Disk δ) (root : List String) : Prop :=
  ∀ path, (disk (root ++ path)).isSome → ".." ∉ path

variable {root : List String}

theorem Tidy.make (h : Tidy disk root)
    (hnames : ∀ name ∈ path, Named name) (hmake : PathWalk.make disk path entry = .ok disk') :
    Tidy disk' root := by
  obtain ⟨location, hloc, -, hdisk⟩ := make_ok hmake
  intro below hsome
  rw [hdisk] at hsome
  split at hsome
  · next heq =>
    rcases eq_nil_or_concat' below with rfl | ⟨above, name, rfl⟩
    · simp
    by_cases hne : path = []
    · subst hne
      cases hloc
      simp at heq
    obtain ⟨directory, -, hdir, rfl⟩ := locate_ok hne hloc
    rw [← append_assoc] at heq
    obtain ⟨rfl, hlast⟩ := append_inj' heq rfl
    have habove := h above (by rw [hdir]; rfl)
    have hname := (hnames _ (getLast_mem hne)).2.2
    rw [← List.cons.inj hlast |>.1] at hname
    simp [habove, Ne.symm hname]
  · exact h below hsome

theorem Tidy.mkdirUp (h : Tidy disk root) :
    ∀ {path : List String} {disk' : Disk δ}, (∀ name ∈ path, Named name) →
      PathWalk.mkdirUp disk path = .ok disk' → Tidy disk' root := by
  intro path
  induction path with
  | nil =>
    intro disk' _ hmake
    cases hmake
    exact h
  | cons name above ih =>
    intro disk' hnames hmake
    rw [PathWalk.mkdirUp] at hmake
    split at hmake
    · cases hmake
      exact h
    · cases hmake
    split at hmake
    · cases hmake
    · next between hbetween =>
      have htidy := ih (fun other hother => hnames other (by simp [hother])) hbetween
      exact htidy.make (fun other hother => hnames other (mem_reverse.mp hother)) hmake

end Changes

/-! ## Walks that stay below a directory -/

/-- The depth that a path leads to from a depth, as its text says, or `none` if a `..`
climbs above the top. -/
def climb : Nat → List String → Option Nat
  | depth, [] => some depth
  | depth, component :: rest =>
    if component = "" ∨ component = "." then climb depth rest
    else if component = ".." then
      match depth with
      | 0 => none
      | depth + 1 => climb depth rest
    else climb (depth + 1) rest

section Climb

variable {depth : Nat} {component : String} {path rest : List String}

theorem climb_stay (h : component = "" ∨ component = ".") :
    climb depth (component :: rest) = climb depth rest := by
  conv_lhs => unfold climb
  exact if_pos h

theorem climb_up : climb (depth + 1) (".." :: rest) = climb depth rest := by
  simp [climb]

theorem climb_up_zero : climb 0 (".." :: rest) = none := by
  simp [climb]

theorem climb_name (h : Named component) :
    climb depth (component :: rest) = climb (depth + 1) rest := by
  conv_lhs => unfold climb
  rw [if_neg (by simp [h.1, h.2.1]), if_neg h.2.2]

theorem named_of_not (hstay : ¬(component = "" ∨ component = ".")) (hup : component ≠ "..") :
    Named component :=
  ⟨fun h => hstay (.inl h), fun h => hstay (.inr h), hup⟩

theorem climb_append (path : List String) :
    ∀ depth, climb depth (path ++ rest) =
      (climb depth path).bind fun depth => climb depth rest := by
  induction path with
  | nil => exact fun _ => rfl
  | cons component path ih =>
    intro depth
    rw [cons_append]
    by_cases hstay : component = "" ∨ component = "."
    · rw [climb_stay hstay, climb_stay hstay, ih]
    by_cases hup : component = ".."
    · subst hup
      cases depth with
      | zero => rw [climb_up_zero, climb_up_zero, Option.bind_none]
      | succ depth => rw [climb_up, climb_up, ih]
    · rw [climb_name (named_of_not hstay hup), climb_name (named_of_not hstay hup), ih]

/-- From further down a path leads as much further down. -/
theorem climb_add (deeper : Nat) (path : List String) :
    ∀ {depth reached}, climb depth path = some reached →
      climb (depth + deeper) path = some (reached + deeper) := by
  induction path with
  | nil =>
    intro depth reached h
    cases h
    rfl
  | cons component path ih =>
    intro depth reached h
    by_cases hstay : component = "" ∨ component = "."
    · rw [climb_stay hstay] at h ⊢
      exact ih h
    by_cases hup : component = ".."
    · subst hup
      cases depth with
      | zero =>
        rw [climb_up_zero] at h
        cases h
      | succ depth =>
        rw [climb_up] at h
        rw [Nat.succ_add, climb_up]
        exact ih h
    · have hname := named_of_not hstay hup
      rw [climb_name hname] at h ⊢
      rw [Nat.add_right_comm]
      exact ih h

/-- A path that climbs above the top comes to the top before. -/
theorem exists_top_of_climb (path : List String) :
    ∀ {depth}, climb depth path = none →
      ∃ before after, path = before ++ ".." :: after ∧ climb depth before = some 0 := by
  induction path with
  | nil =>
    intro depth h
    cases h
  | cons component path ih =>
    intro depth h
    by_cases hstay : component = "" ∨ component = "."
    · rw [climb_stay hstay] at h
      obtain ⟨before, after, rfl, htop⟩ := ih h
      exact ⟨component :: before, after, rfl, by rw [climb_stay hstay, htop]⟩
    by_cases hup : component = ".."
    · subst hup
      cases depth with
      | zero => exact ⟨[], path, rfl, rfl⟩
      | succ depth =>
        rw [climb_up] at h
        obtain ⟨before, after, rfl, htop⟩ := ih h
        exact ⟨".." :: before, after, rfl, by rw [climb_up, htop]⟩
    · have hname := named_of_not hstay hup
      rw [climb_name hname] at h
      obtain ⟨before, after, rfl, htop⟩ := ih h
      exact ⟨component :: before, after, rfl, by rw [climb_name hname, htop]⟩

theorem climb_of_not_mem (h : ".." ∉ path) : (climb depth path).isSome := by
  cases hclimb : climb depth path with
  | some reached => rfl
  | none =>
    obtain ⟨before, after, rfl, -⟩ := exists_top_of_climb path hclimb
    simp at h

end Climb

section Confined

variable {δ : Type} {disk : Disk δ}

/-- No `..` of a path climbs out of a link: what is between a name and the `..` that takes
it back leads neither up nor down, and the name is no link where the walk comes to it. -/
def Clear (disk : Disk δ) (directory path : List String) : Prop :=
  ∀ before component between after, path = before ++ component :: (between ++ ".." :: after) →
    Named component → climb 0 between = some 0 →
    ∀ reached, Relation.ReflTransGen (Step disk) ⟨directory, before⟩ ⟨reached, []⟩ →
    ∀ rooted target, disk (reached ++ [component]) ≠ some (.link rooted target)

/-- A link leads to a place below the root, and no `..` in it climbs out of a link. -/
structure Links (disk : Disk δ) (root : List String) : Prop where
  relative : ∀ path target, disk (root ++ path) ≠ some (.link true target)
  inside : ∀ directory name target,
    disk (root ++ directory ++ [name]) = some (.link false target) →
      (climb directory.length target).isSome
  clear : ∀ directory name target,
    disk (root ++ directory ++ [name]) = some (.link false target) →
      Clear disk (root ++ directory) target

variable {directory directory' rest target root path : List String} {component : String}

theorem clear_of_not_mem (h : ".." ∉ path) : Clear disk directory path := by
  rintro before component between after rfl
  simp at h

/-- The rest of a clear path is clear. -/
theorem Clear.tail (h : Clear disk directory (component :: rest))
    (hstep : ∀ rest, Step disk ⟨directory, component :: rest⟩ ⟨directory', rest⟩) :
    Clear disk directory' rest := by
  intro before name between after hpath hname htop reached hwalk
  exact h (component :: before) name between after (by rw [hpath]; rfl) hname htop reached
    (.head (hstep before) hwalk)

/-- No `..` after a link climbs out of it. -/
theorem Clear.climb_rest (h : Clear disk directory (component :: rest)) (hname : Named component)
    (hlink : disk (directory ++ [component]) = some (.link false target)) :
    ∃ depth, climb 0 rest = some depth := by
  cases hclimb : climb 0 rest with
  | some depth => exact ⟨depth, rfl⟩
  | none =>
    obtain ⟨between, after, rfl, htop⟩ := exists_top_of_climb rest hclimb
    exact absurd hlink (h [] component between after rfl hname htop directory .refl _ _)

/-- A path is clear after a link of it is replaced by its target. -/
theorem Clear.follow (h : Clear disk directory (component :: rest)) (hname : Named component)
    (hlink : disk (directory ++ [component]) = some (.link false target))
    (htarget : Clear disk directory target) : Clear disk directory (target ++ rest) := by
  obtain ⟨depth, hdepth⟩ := h.climb_rest hname hlink
  intro before name between after hpath hnamed htop reached hwalk rooted target' hlink'
  -- A name after the target was already looked at behind the link.
  have hbehind : ∀ more, before = target ++ more →
      rest = more ++ name :: (between ++ ".." :: after) → False := by
    rintro more rfl hrest
    exact h (component :: more) name between after (by rw [hrest]; rfl) hnamed htop reached
      (.head (.follow hname hlink) hwalk) rooted target' hlink'
  rcases append_eq_append_iff.mp hpath with ⟨more, hbefore, hrest⟩ | ⟨tail, htgt, hsplit⟩
  · exact hbehind more hbefore hrest
  cases tail with
  | nil => exact hbehind [] (by simpa using htgt.symm) hsplit.symm
  | cons first tail =>
    obtain ⟨rfl, hinner⟩ := List.cons.inj hsplit
    rcases append_eq_append_iff.mp hinner with ⟨more, htail, hrest⟩ | ⟨more, hbetween, hrest⟩
    · cases more with
      | nil =>
        rw [← nil_append rest, ← hrest, climb_up_zero] at hdepth
        cases hdepth
      | cons dots more =>
        obtain ⟨rfl, -⟩ := List.cons.inj hrest
        exact htarget before name between more (by rw [htgt, htail]) hnamed htop reached hwalk
          rooted target' hlink'
    · -- The `..` is behind the link and would climb out of it.
      rw [hbetween, climb_append] at htop
      obtain ⟨inner, -, htop⟩ := Option.bind_eq_some_iff.mp htop
      have hdeep := climb_add inner rest hdepth
      rw [hrest, climb_append, Nat.zero_add, htop, Option.bind_some, climb_up_zero] at hdeep
      cases hdeep

/-- The walk is below the root, and what is left of it does not climb out. -/
def Below (disk : Disk δ) (root : List String) (place : Place) : Prop :=
  ∃ directory, place.directory = root ++ directory ∧
    (climb directory.length place.rest).isSome ∧ Clear disk place.directory place.rest

theorem Below.step {place place' : Place} (hlinks : Links disk root)
    (h : Below disk root place) (hstep : Step disk place place') : Below disk root place' := by
  obtain ⟨directory, hdir, hclimb, hclear⟩ := h
  cases hstep with
  | stay hname =>
    rw [climb_stay hname] at hclimb
    exact ⟨directory, hdir, hclimb, hclear.tail fun _ => .stay hname⟩
  | up =>
    subst hdir
    cases directory using List.reverseRecOn with
    | nil =>
      rw [length_nil, climb_up_zero] at hclimb
      cases hclimb
    | append_singleton above last =>
      rw [length_append, length_singleton, climb_up] at hclimb
      have hupper : (root ++ (above ++ [last])).dropLast = root ++ above := by
        rw [← append_assoc, dropLast_concat]
      exact ⟨above, hupper, hclimb, hclear.tail fun _ => .up⟩
  | enter hname hdirectory =>
    subst hdir
    rw [climb_name hname] at hclimb
    exact ⟨directory ++ [_], append_assoc _ _ _, by simpa using hclimb,
      hclear.tail fun _ => .enter hname hdirectory⟩
  | follow hname hlink =>
    subst hdir
    obtain ⟨depth, hdepth⟩ := hclear.climb_rest hname hlink
    obtain ⟨inner, hinner⟩ := Option.isSome_iff_exists.mp (hlinks.inside _ _ _ hlink)
    refine ⟨directory, rfl, ?_, hclear.follow hname hlink (hlinks.clear _ _ _ hlink)⟩
    have hdeep := climb_add inner _ hdepth
    rw [Nat.zero_add] at hdeep
    rw [climb_append, hinner, Option.bind_some, hdeep]
    rfl
  | restart hname hlink =>
    subst hdir
    rw [append_assoc] at hlink
    exact absurd hlink (hlinks.relative _ _)

/-- The walk of a path that does not climb stays below the root if no link leads out. -/
theorem confined_of_links (hlinks : Links disk root) (hpath : ".." ∉ path) :
    Confined disk root path := by
  intro place hwalk
  have hbelow : Below disk root place := by
    induction hwalk with
    | refl => exact ⟨[], by simp, climb_of_not_mem hpath, clear_of_not_mem hpath⟩
    | tail _ hstep ih => exact ih.step hlinks hstep
  obtain ⟨directory, hdir, -⟩ := hbelow
  rw [hdir]
  exact prefix_append _ _

end Confined

end PathWalk
