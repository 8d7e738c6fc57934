import Atum.Library.Framing
import Atum.Update.ManagedFile

/-!
# Digests of trees

`treehash.Sum` sorts the files of a tree by their paths, writes one line for each of
them, and digests the stream of these lines.  A path may hold a newline, but the line
behind it has two fields that end in a NUL and a digest that ends in a newline, so the
stream has one reading (`treeStream_injective`).  The order in which the sort leaves
files with one path does not matter, since such files are refused (`treeStream_perm`).
-/

namespace Atum.Update

open Atum.Go List

variable {δ : Type} {contents : Contents δ}

/-- What the digest of a tree takes in of a file. -/
def treeKey (contents : Contents δ) (file : TreeFile δ) : String × Nat × String :=
  (file.path, perm file.mode, contents.hash file.data)

/-- The files in the order of `treehash.Sum`. -/
def sortFiles (files : List (TreeFile δ)) : List (TreeFile δ) :=
  files.insertionSort fun left right => left.path ≤ right.path

/-! ## The stream -/

/-- The line of a file, from what it takes in. -/
def keyLine (key : String × Nat × String) : List Char :=
  key.1.toList ++ '\x00' :: ((zeroPadded 8 4 key.2.1).toList ++
    '\x00' :: (key.2.2.toList ++ ['\n']))

theorem toList_treeLine (file : TreeFile δ) :
    (treeLine contents file).toList = keyLine (treeKey contents file) := by
  simp [treeLine, keyLine, treeKey]

theorem keyLine_selfDelimiting : Framing.SelfDelimiting
    (fun key => '\x00' ∉ key.1.toList ∧ '\n' ∉ key.2.2.toList) keyLine := by
  rintro ⟨path, mode, digest⟩ ⟨path', mode', digest'⟩ s t ⟨hpath, hdigest⟩ ⟨hpath', hdigest'⟩ h
  have hmode : ∀ n, '\x00' ∉ (zeroPadded 8 4 n).toList := fun n =>
    not_mem_zeroPadded (by decide) (by decide) (by decide)
  simp only [keyLine, append_assoc, cons_append, nil_append] at h
  obtain ⟨hpath, h⟩ := Framing.append_cons_inj hpath hpath' h
  obtain ⟨hdigits, h⟩ := Framing.append_cons_inj (hmode _) (hmode _) h
  obtain ⟨hdigest, hrest⟩ := Framing.append_cons_inj hdigest hdigest' h
  obtain rfl : path = path' := String.toList_injective hpath
  obtain rfl : mode = mode' :=
    zeroPadded_injective (by decide) (by decide) (String.toList_injective hdigits)
  obtain rfl : digest = digest' := String.toList_injective hdigest
  exact ⟨rfl, hrest⟩

theorem toList_of_treeStream (files : List (TreeFile δ)) :
    ∀ {previous stream : String}, treeStream contents previous files = .ok stream →
      stream.toList = (files.map (treeKey contents)).flatMap keyLine := by
  induction files with
  | nil =>
    intro previous stream h
    cases h
    rfl
  | cons file rest ih =>
    intro previous stream h
    rw [treeStream] at h
    split at h
    · cases h
    · obtain ⟨tail, htail, heq⟩ := bind_eq_ok.mp h
      cases heq
      rw [String.toList_append, toList_treeLine, ih htail, map_cons, flatMap_cons]

/-- A stream determines what it was made of. -/
theorem treeStream_injective (hlines : ∀ data, '\n' ∉ (contents.hash data).toList)
    {left right : List (TreeFile δ)} {previous previous' stream : String}
    (hpaths : ∀ file ∈ left ++ right, '\x00' ∉ file.path.toList)
    (hleft : treeStream contents previous left = .ok stream)
    (hright : treeStream contents previous' right = .ok stream) :
    left.map (treeKey contents) = right.map (treeKey contents) := by
  have hvalid : ∀ files : List (TreeFile δ), (∀ file ∈ files, '\x00' ∉ file.path.toList) →
      ∀ key ∈ files.map (treeKey contents), '\x00' ∉ key.1.toList ∧ '\n' ∉ key.2.2.toList := by
    intro files hfiles key hkey
    obtain ⟨file, hfile, rfl⟩ := mem_map.mp hkey
    exact ⟨hfiles file hfile, hlines _⟩
  rw [forall_mem_append] at hpaths
  exact keyLine_selfDelimiting.flatMap_injective (fun key => by simp [keyLine])
    (hvalid left hpaths.1) (hvalid right hpaths.2)
    ((toList_of_treeStream _ hleft).symm.trans (toList_of_treeStream _ hright))

/-! ## Sorted files -/

/-- The files are sorted by their paths. -/
def ByPath (files : List (TreeFile δ)) : Prop :=
  files.Pairwise fun left right => left.path ≤ right.path

theorem byPath_sortFiles (files : List (TreeFile δ)) : ByPath (sortFiles files) := by
  have htotal : Std.Total fun left right : TreeFile δ => left.path ≤ right.path :=
    ⟨fun left right => le_total left.path right.path⟩
  have htrans : IsTrans (TreeFile δ) fun left right => left.path ≤ right.path :=
    ⟨fun _ _ _ hab hbc => hab.trans hbc⟩
  exact pairwise_insertionSort _ files

/-- Sorted files are accepted if each is one, and no path is repeated. -/
theorem exists_treeStream_iff (files : List (TreeFile δ)) : ∀ {previous : String},
    ByPath files → (∀ file ∈ files, previous ≤ file.path) →
      ((∃ stream, treeStream contents previous files = .ok stream) ↔
        (∀ file ∈ files, file.path ≠ "" ∧ isRegularMode file.mode = true ∧ file.path ≠ previous) ∧
          (files.map (·.path)).Nodup) := by
  induction files with
  | nil => exact fun _ _ => iff_of_true ⟨"", rfl⟩ ⟨by simp, nodup_nil⟩
  | cons file rest ih =>
    intro previous hsorted hleast
    obtain ⟨hfirst, hsorted⟩ := pairwise_cons.mp hsorted
    have hleast := hleast file mem_cons_self
    rw [treeStream, forall_mem_cons, map_cons, nodup_cons]
    split
    · next hbad =>
      refine iff_of_false (fun ⟨_, h⟩ => by cases h) fun ⟨⟨⟨hname, hmode, hnew⟩, _⟩, _⟩ => ?_
      rcases hbad with hbad | hbad | hbad
      · exact hname hbad
      · exact hnew hbad
      · exact hbad hmode
    next hgood =>
    rw [not_or, not_or, not_not] at hgood
    have hrest : (∃ stream, (do
        let tail ← treeStream contents file.path rest
        return treeLine contents file ++ tail) = .ok stream) ↔
        ∃ tail, treeStream contents file.path rest = .ok tail := by
      constructor
      · rintro ⟨stream, h⟩
        obtain ⟨tail, htail, -⟩ := bind_eq_ok.mp h
        exact ⟨tail, htail⟩
      · rintro ⟨tail, h⟩
        exact ⟨_, by rw [h]; rfl⟩
    rw [hrest, ih hsorted hfirst]
    constructor
    · rintro ⟨hall, hnodup⟩
      refine ⟨⟨⟨hgood.1, hgood.2.2, hgood.2.1⟩, fun other hother => ?_⟩, fun hmem => ?_, hnodup⟩
      · obtain ⟨hname, hmode, -⟩ := hall other hother
        refine ⟨hname, hmode, fun heq => hgood.2.1 (hleast.antisymm' ?_)⟩
        exact heq ▸ hfirst other hother
      · obtain ⟨other, hother, heq⟩ := mem_map.mp hmem
        exact (hall other hother).2.2 heq
    · rintro ⟨⟨-, hall⟩, hnew, hnodup⟩
      refine ⟨fun other hother => ⟨(hall other hother).1, (hall other hother).2.1, ?_⟩, hnodup⟩
      exact fun heq => hnew (mem_map.mpr ⟨other, hother, heq⟩)

/-- Two files with one path are refused, whichever comes first. -/
theorem treeStream_of_repeated {file twin : TreeFile δ} {rest : List (TreeFile δ)}
    (hsorted : ByPath (file :: rest)) (htwin : twin ∈ rest) (hpath : twin.path = file.path)
    (previous : String) : treeStream contents previous (file :: rest) =
      .error s!"tree contains an invalid or duplicate regular file {quote file.path}" := by
  obtain ⟨hfirst, hsorted⟩ := pairwise_cons.mp hsorted
  cases rest with
  | nil => cases htwin
  | cons next rest =>
    have hnext : next.path = file.path := by
      refine le_antisymm ?_ (hfirst next mem_cons_self)
      rcases mem_cons.mp htwin with rfl | htwin
      · exact hpath.le
      · exact hpath ▸ (pairwise_cons.mp hsorted).1 twin htwin
    rw [treeStream]
    split
    · rfl
    · rw [treeStream, if_pos (.inr (.inl hnext)), hnext]
      rfl

/-- However files with one path are sorted, the stream is the same. -/
theorem treeStream_perm (left : List (TreeFile δ)) : ∀ {right : List (TreeFile δ)}
    {previous : String}, left.Perm right → ByPath left → ByPath right →
      treeStream contents previous left = treeStream contents previous right := by
  induction left with
  | nil =>
    intro right previous hperm _ _
    rw [nil_perm.mp hperm]
  | cons file rest ih =>
    intro right previous hperm hleft hright
    cases right with
    | nil => cases hperm.eq_nil
    | cons file' rest' =>
      by_cases heq : file = file'
      · subst heq
        rw [treeStream, treeStream,
          ih (perm_cons _ |>.mp hperm) (pairwise_cons.mp hleft).2 (pairwise_cons.mp hright).2]
      -- The two first files are different, and each is the first one by its path.
      have hmem : file' ∈ rest :=
        (mem_cons.mp (hperm.mem_iff.mpr mem_cons_self)).resolve_left (Ne.symm heq)
      have hmem' : file ∈ rest' :=
        (mem_cons.mp (hperm.mem_iff.mp mem_cons_self)).resolve_left heq
      have hpath : file'.path = file.path :=
        ((pairwise_cons.mp hright).1 file hmem').antisymm ((pairwise_cons.mp hleft).1 file' hmem)
      rw [treeStream_of_repeated hleft hmem hpath, treeStream_of_repeated hright hmem' hpath.symm,
        hpath]

/-- The digest of a tree is the digest of its stream. -/
theorem treeSum_eq (files : List (TreeFile δ)) : treeSum contents files =
    (treeStream contents "" (sortFiles files)).map fun stream =>
      contents.hash (contents.text stream) := by
  rw [treeSum, sortFiles]
  cases treeStream contents ""
    (files.insertionSort fun left right => left.path ≤ right.path) <;> rfl

/-- The digest of a tree is the digest of its stream.  It does not depend on the order of
the files, only lists with an empty or repeated path or an irregular file are refused, and
the digested stream tells the files. -/
theorem treeSum_faithful (hlines : ∀ data, '\n' ∉ (contents.hash data).toList) :
    (∀ files : List (TreeFile δ), treeSum contents files =
      (treeStream contents "" (sortFiles files)).map fun stream =>
        contents.hash (contents.text stream)) ∧
    (∀ files other : List (TreeFile δ), files.Perm other →
      treeSum contents files = treeSum contents other) ∧
    (∀ files : List (TreeFile δ), (∃ e, treeSum contents files = .error e) ↔
      (∃ file ∈ files, file.path = "" ∨ ¬isRegularMode file.mode) ∨
        ¬(files.map (·.path)).Nodup) ∧
    ∀ (left right : List (TreeFile δ)) (stream : String),
      (∀ file ∈ left ++ right, '\x00' ∉ file.path.toList) →
      treeStream contents "" (sortFiles left) = .ok stream →
      treeStream contents "" (sortFiles right) = .ok stream →
      ∀ key, key ∈ left.map (treeKey contents) ↔ key ∈ right.map (treeKey contents) := by
  have hsort : ∀ files : List (TreeFile δ), (sortFiles files).Perm files := perm_insertionSort _
  refine ⟨treeSum_eq, fun files other hperm => ?_, fun files => ?_,
    fun left right stream hpaths hleft hright key => ?_⟩
  · rw [treeSum_eq, treeSum_eq, treeStream_perm _ ((hsort files).trans (hperm.trans
      (hsort other).symm)) (byPath_sortFiles files) (byPath_sortFiles other)]
  · have herr : (∃ e, treeSum contents files = .error e) ↔
        ¬∃ stream, treeStream contents "" (sortFiles files) = .ok stream := by
      rw [treeSum_eq]
      cases treeStream contents "" (sortFiles files) with
      | ok stream => exact iff_of_false (fun ⟨_, h⟩ => by cases h) (not_not.mpr ⟨stream, rfl⟩)
      | error e => exact iff_of_true ⟨e, rfl⟩ fun ⟨_, h⟩ => by cases h
    rw [herr, exists_treeStream_iff _ (byPath_sortFiles files) fun file _ =>
      not_lt.mp (not_lt_nil _), not_and_or]
    refine or_congr ?_ (not_congr ((hsort files).map _).nodup_iff)
    constructor
    · intro hnot
      by_contra hall
      refine hnot fun file hfile => ?_
      have hfine : ¬(file.path = "" ∨ ¬isRegularMode file.mode) := fun hbad =>
        hall ⟨file, (hsort files).mem_iff.mp hfile, hbad⟩
      rw [not_or, not_not] at hfine
      exact ⟨hfine.1, hfine.2, hfine.1⟩
    · rintro ⟨file, hfile, hbad⟩ hall
      obtain ⟨hname, hmode, -⟩ := hall file ((hsort files).mem_iff.mpr hfile)
      exact hbad.elim hname fun hirregular => hirregular hmode
  · have hkeys := treeStream_injective hlines (fun file hfile => hpaths file (by
      simpa [(hsort _).mem_iff] using hfile)) hleft hright
    rw [((hsort left).map _).mem_iff.symm, hkeys, ((hsort right).map _).mem_iff]

/-- Files with a text for their content; the digest is the text without its newlines. -/
def textContents : Contents String where
  hash data := String.ofList (data.toList.filter (· ≠ '\n'))
  text := id
  size data := data.utf8ByteSize

theorem treeSum_faithful_swapped :
    let files : List (TreeFile String) := [⟨"a", 0o644, "x"⟩, ⟨"b\n", 0o755, "y"⟩]
    treeSum textContents files = .ok "a\x000644\x00xb\x000755\x00y" ∧
      treeSum textContents files.reverse = treeSum textContents files ∧
      (∃ e, treeSum textContents (⟨"a", 0o600, ""⟩ :: files) = .error e) ∧
      ∀ other, (∀ file ∈ files ++ other, '\x00' ∉ file.path.toList) →
        treeStream textContents "" (sortFiles other) =
          .ok "a\x000644\x00x\nb\n\x000755\x00y\n" →
        ∀ key, key ∈ files.map (treeKey textContents) ↔ key ∈ other.map (treeKey textContents) := by
  intro files
  obtain ⟨hdigest, hperm, herror, hstream⟩ :=
    @treeSum_faithful _ textContents fun data => by simp [textContents]
  have hfiles : treeStream textContents "" (sortFiles files) =
      .ok "a\x000644\x00x\nb\n\x000755\x00y\n" := by
    decide +kernel
  refine ⟨?_, hperm _ _ (reverse_perm files), (herror _).mpr (.inr (by simp [files])),
    fun other hpaths => hstream files other _ hpaths hfiles⟩
  rw [hdigest, hfiles]
  decide +kernel

end Atum.Update
