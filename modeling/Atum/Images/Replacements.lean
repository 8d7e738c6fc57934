import Atum.Config.Image
import Atum.Go.Outcome
import Atum.Library.SortedAssoc

/-!
# Compacted image replacements

`compactReplacements` takes replacements that were made one after the other and
resolves their chains: from `a` to `b` and from `b` to `c` it makes `a` to `c` and
`b` to `c`.  `imageTargetReplacements` gives it the renames of the targets of all
images, which happen at the same time.  A chain of such renames is no chain of
replacements, and its first image gets the target of the last one
(`imageTargetReplacements_own_target_iff`).
-/

namespace Atum.Images

open Atum.Go Atum.Config List SortedAssoc

/-! ## Chains -/

section Chains

variable {κ : Type} {next : κ → Option κ} {a b c : κ}

/-- The chain that starts with a step from the first key ends in the second one. -/
inductive Ends (next : κ → Option κ) : κ → κ → Prop where
  | last {a b : κ} (hnext : next a = some b) (hend : next b = none) : Ends next a b
  | step {a b c : κ} (hnext : next a = some b) (hrest : Ends next b c) : Ends next a c

theorem Ends.next_start (h : Ends next a b) : ∃ c, next a = some c := by
  cases h with
  | last hnext _ => exact ⟨_, hnext⟩
  | step hnext _ => exact ⟨_, hnext⟩

theorem Ends.next_end (h : Ends next a b) : next b = none := by
  induction h with
  | last _ hend => exact hend
  | step _ _ ih => exact ih

/-- A chain of one step ends after that step. -/
theorem Ends.eq_of_next (h : Ends next a c) (hnext : next a = some b) (hend : next b = none) :
    c = b := by
  cases h with
  | last hfirst _ => exact Option.some.inj (hfirst.symm.trans hnext)
  | step hfirst hrest =>
    obtain rfl := Option.some.inj (hfirst.symm.trans hnext)
    obtain ⟨d, hd⟩ := hrest.next_start
    exact absurd (hd.symm.trans hend) (by simp)

theorem Ends.unique (h : Ends next a b) : ∀ {c : κ}, Ends next a c → c = b := by
  induction h with
  | last hnext hend =>
    intro c hother
    exact hother.eq_of_next hnext hend
  | step hnext hrest ih =>
    intro c hother
    cases hother with
    | last hfirst hend =>
      obtain rfl := Option.some.inj (hfirst.symm.trans hnext)
      obtain ⟨d, hd⟩ := hrest.next_start
      exact absurd (hd.symm.trans hend) (by simp)
    | step hfirst hother =>
      obtain rfl := Option.some.inj (hfirst.symm.trans hnext)
      exact ih hother

theorem Ends.transGen (h : Ends next a b) : Relation.TransGen (next · = some ·) a b := by
  induction h with
  | last hnext _ => exact .single hnext
  | step hnext _ ih => exact .head hnext ih

/-- A chain that ends does not come back to its start. -/
theorem Ends.acyclic (h : Ends next a b) : ¬ Relation.TransGen (next · = some ·) a a := by
  have hrotate : ∀ {a b : κ}, next a = some b → Relation.TransGen (next · = some ·) a a →
      Relation.TransGen (next · = some ·) b b := by
    intro a b hnext hcycle
    obtain ⟨c, hfirst, hback⟩ := Relation.TransGen.head'_iff.mp hcycle
    obtain rfl := Option.some.inj (hfirst.symm.trans hnext)
    exact .tail' hback hnext
  induction h with
  | last hnext hend =>
    intro hcycle
    obtain ⟨c, hfirst, -⟩ := Relation.TransGen.head'_iff.mp (hrotate hnext hcycle)
    exact absurd (hfirst.symm.trans hend) (by simp)
  | step hnext _ ih => exact fun hcycle => ih (hrotate hnext hcycle)

end Chains

/-! ## The compactor -/

/-- `imageReplacement`. -/
@[ext] structure ImageReplacement where
  old : String
  new : String
  deriving DecidableEq, Repr

/-- The first loop of `compactReplacements`: the map `byOld`. -/
def replacementsByOld : List ImageReplacement → List (String × String) →
    Except String (List (String × String))
  | [], byOld => .ok byOld
  | replacement :: rest, byOld =>
    match byOld.lookup replacement.old with
    | none => replacementsByOld rest (SortedAssoc.insert replacement.old replacement.new byOld)
    | some existing =>
      if existing ≠ replacement.new then
        .error
          s!"image {replacement.old} has conflicting replacements {existing} and {replacement.new}"
      else replacementsByOld rest byOld

/-- The values of the map `state`; a key that is not in the map has value zero. -/
inductive Mark where
  | visiting
  | done
  deriving DecidableEq, Repr

/-- The maps that the recursive function of `compactReplacements` shares. -/
structure Resolution where
  resolved : List (String × String) := []
  state : List (String × Mark) := []

def Resolution.enter (resolution : Resolution) (old : String) : Resolution :=
  { resolution with state := (old, .visiting) :: resolution.state }

def Resolution.finish (resolution : Resolution) (old final : String) : Resolution where
  resolved := (old, final) :: resolution.resolved
  state := (old, .done) :: resolution.state

/-- The recursive function `resolve`; it diverges without fuel only. -/
def resolve (byOld : List (String × String)) :
    Nat → String → Resolution → Outcome (String × Resolution)
  | 0, _, _ => .diverges
  | fuel + 1, old, resolution =>
    match resolution.resolved.lookup old with
    | some final => .ok (final, resolution)
    | none =>
      if resolution.state.lookup old = some .visiting then
        .error s!"image replacement cycle includes {old}"
      else
        let final := (byOld.lookup old).getD ""
        match byOld.lookup final with
        | none => .ok (final, (resolution.enter old).finish old final)
        | some _ => do
            let (final, resolution) ← resolve byOld fuel final (resolution.enter old)
            return (final, resolution.finish old final)

/-- The last loop of `compactReplacements`. -/
def resolveEach (byOld : List (String × String)) :
    List String → Resolution → Outcome (List ImageReplacement)
  | [], _ => .ok []
  | old :: rest, resolution => do
      let (final, resolution) ← resolve byOld (byOld.length + 1) old resolution
      let replacements ← resolveEach byOld rest resolution
      return if old ≠ final then ⟨old, final⟩ :: replacements else replacements

/-- `compactReplacements`.  The keys of `byOld` are sorted. -/
def compactReplacements (replacements : List ImageReplacement) :
    Outcome (List ImageReplacement) := do
  let byOld ← Outcome.ofExcept (replacementsByOld replacements [])
  resolveEach byOld (byOld.map Prod.fst) {}

/-- One round of the loop of `imageTargetReplacements`. -/
def imageTargetReplacement (previous : List (String × String)) (image : Image) :
    Option ImageReplacement :=
  match previous.lookup image.id with
  | none => none
  | some oldTarget => if oldTarget = image.target then none else some ⟨oldTarget, image.target⟩

/-- `imageTargetReplacements`. -/
def imageTargetReplacements (previous : List (String × String)) (images : List Image) :
    Outcome (List ImageReplacement) :=
  compactReplacements (images.filterMap (imageTargetReplacement previous))

/-! ## What the compactor computes -/

variable {replacements : List ImageReplacement}

/-- A key of the map has the value of the only replacement of that key. -/
theorem lookup_replacementsByOld : ∀ {byOld result : List (String × String)},
      replacementsByOld replacements byOld = .ok result → ∀ old new : String,
        result.lookup old = some new ↔ byOld.lookup old = some new ∨ ⟨old, new⟩ ∈ replacements := by
  induction replacements with
  | nil =>
    intro byOld result h old new
    cases h
    simp
  | cons replacement rest ih =>
    intro byOld result h old new
    rw [replacementsByOld] at h
    rw [mem_cons, ImageReplacement.ext_iff]
    split at h
    · next hnone =>
      rw [ih h, lookup_insert]
      split
      · next heq =>
        subst heq
        simp [hnone, eq_comm]
      · next hne => simp [hne]
    next existing hexisting =>
    split at h
    · cases h
    next hsame =>
    rw [ih h]
    constructor
    · exact fun hnew => hnew.imp_right .inr
    rintro (hnew | ⟨rfl, rfl⟩ | hnew)
    · exact .inl hnew
    · exact .inl (hexisting.trans (congrArg some (not_not.mp hsame)))
    · exact .inr hnew

section Resolve

variable {byOld : List (String × String)}

/-- Every stored result is the end of its chain. -/
def Resolution.Sound (byOld : List (String × String)) (resolution : Resolution) : Prop :=
  ∀ old final, resolution.resolved.lookup old = some final → Ends (byOld.lookup ·) old final

variable {resolution : Resolution} {old : String}

theorem Resolution.Sound.finish (h : resolution.Sound byOld)
    {final : String} (hends : Ends (byOld.lookup ·) old final) :
    (resolution.finish old final).Sound byOld := by
  intro other end' hlookup
  rcases lookup_cons_eq_some.mp hlookup with ⟨rfl, rfl⟩ | ⟨-, hlookup⟩
  · exact hends
  · exact h other end' hlookup

/-- Every key that is done has a stored result. -/
def Resolution.Settled (resolution : Resolution) : Prop :=
  ∀ old, resolution.state.lookup old = some .done → (resolution.resolved.lookup old).isSome = true

theorem Resolution.Settled.enter (h : resolution.Settled) (old : String) :
    (resolution.enter old).Settled := by
  intro other hdone
  rcases lookup_cons_eq_some.mp hdone with ⟨-, ⟨⟩⟩ | ⟨-, hdone⟩
  exact h other hdone

theorem Resolution.Settled.finish (h : resolution.Settled)
    (old final : String) : (resolution.finish old final).Settled := by
  intro other hdone
  rw [Resolution.finish, lookup_cons] at hdone ⊢
  split
  · rfl
  · next hne =>
    rw [hne] at hdone
    exact h other hdone

/-- The keys that were never entered. -/
def Resolution.fresh (byOld : List (String × String)) (resolution : Resolution) :
    List (String × String) :=
  byOld.filter fun entry => (resolution.state.lookup entry.1).isNone

theorem Resolution.length_fresh_enter {new : String}
    (hnew : byOld.lookup old = some new) (hfresh : resolution.state.lookup old = none) :
    ((resolution.enter old).fresh byOld).length < (resolution.fresh byOld).length := by
  have hsublist : ((resolution.enter old).fresh byOld).Sublist (resolution.fresh byOld) := by
    refine monotone_filter_right byOld fun entry hent => ?_
    rw [Resolution.enter, lookup_cons] at hent
    split at hent
    · cases hent
    · exact hent
  have hmem : (old, new) ∈ resolution.fresh byOld :=
    mem_filter.mpr ⟨mem_of_lookup hnew, by rw [hfresh]; rfl⟩
  have hnot : (old, new) ∉ (resolution.enter old).fresh byOld := by
    intro hentered
    have hnone := (mem_filter.mp hentered).2
    rw [Resolution.enter, lookup_cons_self] at hnone
    cases hnone
  by_contra hlen
  rw [hsublist.eq_of_length_le (by omega)] at hnot
  exact hnot hmem

/-- One call of the recursive function.  The keys that are being visited lead to the key
of the call, so a key that is met again lies on a cycle, and the depth of the recursion is
bounded by the number of keys, since no key is entered twice. -/
theorem resolve_cases {fuel : Nat} :
    ∀ {old : String} {resolution : Resolution}, resolution.Sound byOld → resolution.Settled →
      (∀ key, resolution.state.lookup key = some .visiting →
        Relation.TransGen (byOld.lookup · = some ·) key old) →
      (byOld.lookup old).isSome = true → (resolution.fresh byOld).length < fuel →
      (∃ text key, resolve byOld fuel old resolution = .error text ∧
        Relation.TransGen (byOld.lookup · = some ·) key key) ∨
      ∃ final resolution', resolve byOld fuel old resolution = .ok (final, resolution') ∧
        Ends (byOld.lookup ·) old final ∧ resolution'.Sound byOld ∧ resolution'.Settled ∧
        ∀ key, resolution'.state.lookup key = some .visiting →
          resolution.state.lookup key = some .visiting := by
  induction fuel with
  | zero =>
    intro old resolution _ _ _ _ hfuel
    omega
  | succ fuel ih =>
    intro old resolution hsound hset hpath hold hfuel
    obtain ⟨new, hnew⟩ := Option.isSome_iff_exists.mp hold
    rw [resolve]
    split
    · next final hres =>
      exact .inr ⟨final, resolution, rfl, hsound old final hres, hsound, hset,
        fun _ hvisiting => hvisiting⟩
    next hunresolved =>
    split
    · next hvisiting => exact .inl ⟨_, old, rfl, hpath old hvisiting⟩
    next hidle =>
    have hfresh : resolution.state.lookup old = none := by
      cases hstate : resolution.state.lookup old with
      | none => rfl
      | some mark =>
        cases mark with
        | visiting => exact absurd hstate hidle
        | done =>
          have hres := hset old hstate
          rw [hunresolved] at hres
          cases hres
    have hfewer := Resolution.length_fresh_enter hnew hfresh
    have hentered : ∀ key, (resolution.enter old).state.lookup key = some .visiting →
        key = old ∨ resolution.state.lookup key = some .visiting := by
      intro key hkey
      exact (lookup_cons_eq_some.mp hkey).imp And.left And.right
    have hfin : ∀ {between : Resolution} {final : String},
        (∀ key, between.state.lookup key = some .visiting →
          (resolution.enter old).state.lookup key = some .visiting) →
        ∀ key, (between.finish old final).state.lookup key = some .visiting →
          resolution.state.lookup key = some .visiting := by
      intro between final hbetween key hkey
      rcases lookup_cons_eq_some.mp hkey with ⟨-, ⟨⟩⟩ | ⟨hne, hkey⟩
      exact (hentered key (hbetween key hkey)).resolve_left hne
    simp only [hnew, Option.getD_some]
    split
    · next hend =>
      exact .inr ⟨new, _, rfl, .last hnew hend, hsound.finish (.last hnew hend),
        (hset.enter old).finish old new, hfin fun _ hkey => hkey⟩
    next hchained =>
    have hpath' : ∀ key, (resolution.enter old).state.lookup key = some .visiting →
        Relation.TransGen (byOld.lookup · = some ·) key new := by
      intro key hkey
      rcases hentered key hkey with rfl | hvisiting
      · exact .single hnew
      · exact (hpath key hvisiting).tail hnew
    have henter : (resolution.enter old).Sound byOld := hsound
    rcases ih henter (hset.enter old) hpath' (Option.isSome_of_eq_some hchained)
      (by omega) with ⟨text, key, herr, hcycle⟩ | ⟨final, between, hok, hends, hbetween⟩
    · exact .inl ⟨text, key, by rw [herr]; rfl, hcycle⟩
    · exact .inr ⟨final, between.finish old final, by rw [hok]; rfl, .step hnew hends,
        hbetween.1.finish (.step hnew hends), hbetween.2.1.finish old final,
        hfin hbetween.2.2⟩

/-- The last loop pairs every key with the end of its chain, or there is a cycle. -/
theorem resolveEach_cases {keys : List String} :
    ∀ {resolution : Resolution}, resolution.Sound byOld → resolution.Settled →
      (∀ key, resolution.state.lookup key ≠ some .visiting) →
      (∀ old ∈ keys, (byOld.lookup old).isSome = true) →
      (∃ text key, resolveEach byOld keys resolution = .error text ∧
        Relation.TransGen (byOld.lookup · = some ·) key key) ∨
      ∃ result, resolveEach byOld keys resolution = .ok result ∧ result.map (·.old) = keys ∧
        ∀ replacement ∈ result, Ends (byOld.lookup ·) replacement.old replacement.new := by
  induction keys with
  | nil => exact fun _ _ _ _ => .inr ⟨[], rfl, rfl, fun _ h => by cases h⟩
  | cons key rest ih =>
    intro resolution hsound hset hidle hkeys
    have hfuel : (resolution.fresh byOld).length < byOld.length + 1 :=
      Nat.lt_succ_of_le (length_filter_le _ _)
    rw [resolveEach]
    rcases resolve_cases hsound hset (fun other h => absurd h (hidle other))
      (hkeys key (by simp)) hfuel with
      ⟨text, other, herr, hcycle⟩ | ⟨final, between, hok, hends, hsound', hset', hvisiting⟩
    · exact .inl ⟨text, other, by rw [herr]; rfl, hcycle⟩
    simp only [hok, Outcome.ok_bind]
    rcases ih hsound' hset' (fun other h => hidle other (hvisiting other h))
      (fun old hold => hkeys old (by simp [hold])) with
      ⟨text, other, herr, hcycle⟩ | ⟨others, hothers, hmap, hall⟩
    · exact .inl ⟨text, other, by rw [herr]; rfl, hcycle⟩
    -- The end of a chain is never its start, so no key is left out.
    have hne : key ≠ final := by
      rintro rfl
      obtain ⟨new, hnew⟩ := hends.next_start
      exact absurd (hends.next_end.symm.trans hnew) (by simp)
    refine .inr ⟨⟨key, final⟩ :: others, ?_, by rw [map_cons, hmap], ?_⟩
    · rw [hothers]
      exact congrArg Outcome.ok (if_pos hne)
    · exact forall_mem_cons.mpr ⟨hends, hall⟩

end Resolve

/-- What the two loops of the compactor give. -/
theorem compactReplacements_cases (replacements : List ImageReplacement) :
    (∃ text, compactReplacements replacements = .error text ∧
      replacementsByOld replacements [] = .error text) ∨
    ∃ byOld, replacementsByOld replacements [] = .ok byOld ∧
      ((∃ text key, compactReplacements replacements = .error text ∧
        Relation.TransGen (byOld.lookup · = some ·) key key) ∨
      ∃ result, compactReplacements replacements = .ok result ∧
        result.map (·.old) = byOld.map Prod.fst ∧
        ∀ replacement ∈ result, Ends (byOld.lookup ·) replacement.old replacement.new) := by
  rw [compactReplacements]
  cases hbyOld : replacementsByOld replacements [] with
  | error text => exact .inl ⟨text, rfl, rfl⟩
  | ok byOld =>
    refine .inr ⟨byOld, rfl, ?_⟩
    exact resolveEach_cases (fun _ _ hlookup => by cases hlookup) (fun _ hdone => by cases hdone)
      (fun _ hvisiting => by cases hvisiting) fun _ => mem_keys_iff.mp

/-- The replacements as a partial function, and the result as the ends of its chains. -/
theorem compactReplacements_ok {result : List ImageReplacement}
    (h : compactReplacements replacements = .ok result) : ∃ next : String → Option String,
      (∀ old new, next old = some new ↔ ⟨old, new⟩ ∈ replacements) ∧
        ∀ replacement : ImageReplacement, replacement ∈ result ↔
          replacement.old ≠ replacement.new ∧ Ends next replacement.old replacement.new := by
  rcases compactReplacements_cases replacements with
    ⟨text, herr, -⟩ | ⟨byOld, hbyOld, ⟨text, key, herr, -⟩ | ⟨found, hok, hkeys, hends⟩⟩
  · rw [herr] at h
    cases h
  · rw [herr] at h
    cases h
  obtain rfl : found = result := Outcome.ok.inj (hok.symm.trans h)
  refine ⟨(byOld.lookup ·), ?_, fun replacement => ⟨fun hmem => ⟨?_, hends _ hmem⟩, ?_⟩⟩
  · intro old new
    rw [lookup_replacementsByOld hbyOld]
    simp
  · intro heq
    exact (hends _ hmem).acyclic (heq ▸ (hends _ hmem).transGen)
  rintro ⟨-, hchain⟩
  obtain ⟨new, hnew⟩ := hchain.next_start
  have hkey : replacement.old ∈ found.map (·.old) :=
    hkeys ▸ mem_map_of_mem (mem_of_lookup hnew)
  obtain ⟨other, hother, hold⟩ := mem_map.mp hkey
  have hsame : other = replacement :=
    ImageReplacement.ext hold (hchain.unique (hold ▸ hends other hother))
  exact hsame ▸ hother

/-! ## When the compactor fails -/

/-- The replacements as a relation. -/
def Replaces (replacements : List ImageReplacement) (old new : String) : Prop :=
  ⟨old, new⟩ ∈ replacements

/-- Two replacements of one reference. -/
def Conflicting (replacements : List ImageReplacement) : Prop :=
  ∃ old new new', Replaces replacements old new ∧ Replaces replacements old new' ∧ new ≠ new'

def Cyclic (replacements : List ImageReplacement) : Prop :=
  ∃ old, Relation.TransGen (Replaces replacements) old old

theorem replacementsByOld_error {text : String} :
    ∀ {byOld : List (String × String)}, replacementsByOld replacements byOld = .error text →
      (∃ old new new', byOld.lookup old = some new ∧ Replaces replacements old new' ∧
        new ≠ new') ∨ Conflicting replacements := by
  induction replacements with
  | nil =>
    intro byOld h
    cases h
  | cons replacement rest ih =>
    intro byOld h
    have hmono : Conflicting rest → Conflicting (replacement :: rest) := by
      rintro ⟨old, new, new', hnew, hnew', hne⟩
      exact ⟨old, new, new', mem_cons_of_mem _ hnew, mem_cons_of_mem _ hnew', hne⟩
    rw [replacementsByOld] at h
    split at h
    · next hnone =>
      rcases ih h with ⟨old, new, new', hlookup, hnew', hne⟩ | hrest
      · rw [lookup_insert] at hlookup
        split at hlookup
        · next heq =>
          obtain rfl := Option.some.inj hlookup
          exact .inr ⟨replacement.old, _, new', mem_cons_self, mem_cons_of_mem _
            (heq ▸ hnew'), hne⟩
        · exact .inl ⟨old, new, new', hlookup, mem_cons_of_mem _ hnew', hne⟩
      · exact .inr (hmono hrest)
    · next existing hexisting =>
      split at h
      · next hne => exact .inl ⟨_, _, _, hexisting, mem_cons_self, hne⟩
      · rcases ih h with ⟨old, new, new', hlookup, hnew', hne⟩ | hrest
        · exact .inl ⟨old, new, new', hlookup, mem_cons_of_mem _ hnew', hne⟩
        · exact .inr (hmono hrest)

theorem sorted_replacementsByOld :
    ∀ {byOld result : List (String × String)}, SortedAssoc.Sorted byOld →
      replacementsByOld replacements byOld = .ok result → SortedAssoc.Sorted result := by
  induction replacements with
  | nil =>
    intro byOld result hsorted h
    cases h
    exact hsorted
  | cons replacement rest ih =>
    intro byOld result hsorted h
    rw [replacementsByOld] at h
    split at h
    · exact ih (hsorted.insert _ _) h
    · split at h
      · cases h
      · exact ih hsorted h

/-- The compactor fails exactly for conflicting or cyclic replacements.  Otherwise its
result has one entry for each old reference, in their order, with the end of its chain. -/
theorem compactReplacements_exact (replacements : List ImageReplacement) :
    (∃ text, compactReplacements replacements = .error text) ∧
        (Conflicting replacements ∨ Cyclic replacements) ∨
      ¬ (Conflicting replacements ∨ Cyclic replacements) ∧
        ∃ result, compactReplacements replacements = .ok result ∧
          (result.map (·.old)).Pairwise (· < ·) ∧
          (∀ old, old ∈ result.map (·.old) ↔ old ∈ replacements.map (·.old)) ∧
          (∀ replacement ∈ result,
            Relation.TransGen (Replaces replacements) replacement.old replacement.new ∧
              ∀ new, ¬ Replaces replacements replacement.new new) ∧
          ∀ replacement ∈ result, replacement.new ∉ result.map (·.old) := by
  rcases compactReplacements_cases replacements with ⟨text, herror, hbyOld⟩ |
    ⟨byOld, hbyOld, hcases⟩
  · rcases replacementsByOld_error hbyOld with ⟨_, _, _, hlookup, -⟩ | hconflict
    · cases hlookup
    · exact .inl ⟨⟨text, herror⟩, .inl hconflict⟩
  have hreplaces : Replaces replacements = (byOld.lookup · = some ·) := by
    funext old new
    rw [lookup_replacementsByOld hbyOld]
    simp [Replaces]
  rcases hcases with ⟨text, key, herror, hcycle⟩ | ⟨result, hok, hkeys, hends⟩
  · exact .inl ⟨⟨text, herror⟩, .inr ⟨key, hreplaces ▸ hcycle⟩⟩
  have hmem : ∀ old, old ∈ result.map (·.old) ↔ ∃ new, Replaces replacements old new := by
    intro old
    rw [hkeys, hreplaces]
    refine ⟨fun hold => Option.isSome_iff_exists.mp (mem_keys_iff.mp hold), ?_⟩
    exact fun ⟨new, hnew⟩ => mem_map_of_mem (mem_of_lookup hnew)
  have hlast : ∀ replacement ∈ result, ∀ new, ¬ Replaces replacements replacement.new new := by
    intro replacement hreplacement new hnew
    rw [hreplaces] at hnew
    exact absurd ((hends _ hreplacement).next_end.symm.trans hnew) (by simp)
  refine .inr ⟨?_, result, hok, ?_, ?_, ?_, ?_⟩
  · rintro (⟨old, new, new', hnew, hnew', hne⟩ | ⟨old, hcycle⟩)
    · rw [hreplaces] at hnew hnew'
      exact hne (Option.some.inj (hnew.symm.trans hnew'))
    · obtain ⟨new, hnew, -⟩ := Relation.TransGen.head'_iff.mp hcycle
      obtain ⟨replacement, hreplacement, rfl⟩ := mem_map.mp ((hmem old).mpr ⟨new, hnew⟩)
      exact (hends _ hreplacement).acyclic (hreplaces ▸ hcycle)
  · rw [hkeys]
    exact pairwise_map.mpr (sorted_replacementsByOld List.Pairwise.nil hbyOld)
  · intro old
    rw [hmem, mem_map]
    exact ⟨fun ⟨new, hnew⟩ => ⟨_, hnew, rfl⟩, fun ⟨r, hr, hold⟩ => ⟨r.new, hold ▸ hr⟩⟩
  · exact fun replacement hreplacement =>
      ⟨hreplaces ▸ (hends _ hreplacement).transGen, hlast _ hreplacement⟩
  · intro replacement hreplacement hold
    obtain ⟨new, hnew⟩ := (hmem _).mp hold
    exact hlast _ hreplacement new hnew

/-! ## Renamed targets -/

/-- The target of the image was renamed. -/
def Renamed (previous : List (String × String)) (image : Image) (oldTarget : String) : Prop :=
  previous.lookup image.id = some oldTarget ∧ oldTarget ≠ image.target

theorem mem_filterMap_imageTargetReplacement {previous : List (String × String)}
    {images : List Image} {replacement : ImageReplacement} :
    replacement ∈ images.filterMap (imageTargetReplacement previous) ↔
      ∃ image ∈ images, Renamed previous image replacement.old ∧
        image.target = replacement.new := by
  rw [mem_filterMap]
  refine exists_congr fun image => and_congr_right fun _ => ?_
  rw [imageTargetReplacement, Renamed]
  split
  · next hnone => simp [hnone]
  next oldTarget hsome =>
  split
  · next heq =>
    simp [hsome]
    grind
  · next hne =>
    rw [Option.some_inj, hsome, ImageReplacement.ext_iff]
    grind

/-- Every renamed image is paired with its own target exactly if no new target of a
renamed image is the previous target of a renamed image. -/
theorem imageTargetReplacements_own_target_iff (previous : List (String × String))
    (images : List Image) (result : List ImageReplacement)
    (hok : imageTargetReplacements previous images = .ok result) :
    (∀ image ∈ images, ∀ oldTarget, Renamed previous image oldTarget →
        ⟨oldTarget, image.target⟩ ∈ result) ↔
      ∀ image ∈ images, ∀ other ∈ images, ∀ oldTarget otherTarget,
        Renamed previous image oldTarget → Renamed previous other otherTarget →
        image.target ≠ otherTarget := by
  obtain ⟨next, hnext, hresult⟩ := compactReplacements_ok hok
  have hstep : ∀ image ∈ images, ∀ oldTarget, Renamed previous image oldTarget →
      next oldTarget = some image.target := by
    intro image himage oldTarget hrenamed
    exact (hnext _ _).mpr (mem_filterMap_imageTargetReplacement.mpr ⟨image, himage, hrenamed, rfl⟩)
  constructor
  · intro hown image himage other hother oldTarget otherTarget hrenamed hotherRenamed heq
    have hends := ((hresult _).mp (hown image himage oldTarget hrenamed)).2
    have hgoesOn := hstep other hother otherTarget hotherRenamed
    rw [← heq] at hgoesOn
    exact absurd (hends.next_end.symm.trans hgoesOn) (by simp)
  intro hfree image himage oldTarget hrenamed
  refine (hresult _).mpr ⟨hrenamed.2, .last (hstep image himage oldTarget hrenamed) ?_⟩
  by_contra hchained
  obtain ⟨new, hnew⟩ := Option.ne_none_iff_exists'.mp hchained
  obtain ⟨other, hother, hotherRenamed, -⟩ :=
    mem_filterMap_imageTargetReplacement.mp ((hnext _ _).mp hnew)
  exact hfree image himage other hother oldTarget _ hrenamed hotherRenamed rfl

/-- An image with a new target. -/
def renamedImage (id target : String) : Image where
  id := id
  target := target
  delivery := { type := .mirror }

theorem imageTargetReplacements_own_target_apart :
    ∃ result, imageTargetReplacements [("a", "hub/a:1"), ("b", "hub/b:1")]
        [renamedImage "a" "hub/a:2", renamedImage "b" "hub/b:2"] = .ok result ∧
      ∀ image ∈ [renamedImage "a" "hub/a:2", renamedImage "b" "hub/b:2"], ∀ oldTarget,
        Renamed [("a", "hub/a:1"), ("b", "hub/b:1")] image oldTarget →
          ⟨oldTarget, image.target⟩ ∈ result := by
  have hok : imageTargetReplacements [("a", "hub/a:1"), ("b", "hub/b:1")]
      [renamedImage "a" "hub/a:2", renamedImage "b" "hub/b:2"] =
      .ok [⟨"hub/a:1", "hub/a:2"⟩, ⟨"hub/b:1", "hub/b:2"⟩] := by decide +kernel
  refine ⟨_, hok, (imageTargetReplacements_own_target_iff _ _ _ hok).mpr ?_⟩
  -- The new targets are no previous ones.
  have hnew : ∀ image ∈ [renamedImage "a" "hub/a:2", renamedImage "b" "hub/b:2"],
      image.target ∉ ["hub/a:1", "hub/b:1"] := by
    decide +kernel
  intro image himage other hother _ otherTarget _ hrenamed heq
  refine hnew image himage (heq ▸ ?_)
  exact mem_map_of_mem (f := Prod.snd) (mem_of_lookup hrenamed.1)

/-- The target of the first image becomes the one that the second image gives up.
The first image is sent to the new target of the second one. -/
theorem imageTargetReplacements_follows_chain :
    imageTargetReplacements [("a", "hub/app:1"), ("b", "hub/app:2")]
        [renamedImage "a" "hub/app:2", renamedImage "b" "hub/app:3"] =
      .ok [⟨"hub/app:1", "hub/app:3"⟩, ⟨"hub/app:2", "hub/app:3"⟩] := by
  decide +kernel

end Atum.Images
