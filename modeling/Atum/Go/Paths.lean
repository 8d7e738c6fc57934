import Atum.Go.Strings

/-!
# Paths below a root

Much of the source brings a path into one form with
`strings.TrimPrefix(path.Clean("/"+p), "/")`: the names from the root to the file,
without empty components, `.` and `..`.  `normalise` computes these names from the
components of a path, and the lemmas relate it to `path.Clean`, `path.Dir` and
`path.Join` on the texts.
-/

namespace Atum.Go

open List String

/-- The names that a list of components leads to from the root. -/
def normalise (parts : List String) : List String := (parts.foldl (cleanStep true) []).reverse

/-- `strings.TrimPrefix(path.Clean("/"+p), "/")` -/
def cleanPath (p : String) : String := trimPrefix (clean ("/" ++ p)) "/"

/-- The text of a path below the root. -/
def pathText (names : List String) : String := join names "/"

/-- `path.Base`. -/
def base (p : String) : String :=
  if p = "" then "."
  else
    let trimmed := String.ofList (p.toList.reverse.dropWhile (· = '/')).reverse
    match cutLast trimmed '/' with
    | some (_, name) => name
    | none => if trimmed = "" then "/" else trimmed

/-! ## Names -/

theorem plainName_foldl_rooted (parts : List String) (hparts : ∀ part ∈ parts, '/' ∉ part.toList) :
    ∀ {out : List String}, (∀ name ∈ out, PlainName name) →
      ∀ name ∈ parts.foldl (cleanStep true) out, PlainName name := by
  induction parts with
  | nil =>
    intro out hout
    exact hout
  | cons part rest ih =>
    intro out hout
    rw [forall_mem_cons] at hparts
    refine ih hparts.2 ?_
    unfold cleanStep
    split
    · exact hout
    next hstay =>
    rw [not_or] at hstay
    split
    · split
      · simp
      next last below =>
      rw [forall_mem_cons] at hout
      split
      · next hlast => exact absurd hlast hout.1.2.2.1
      · exact hout.2
    · next hup => exact forall_mem_cons.mpr ⟨⟨hstay.1, hstay.2, hup, hparts.1⟩, hout⟩

variable {parts : List String}

/-- The names of a path are plain. -/
theorem plainName_normalise (hparts : ∀ part ∈ parts, '/' ∉ part.toList) :
    ∀ name ∈ normalise parts, PlainName name := by
  intro name hname
  exact plainName_foldl_rooted parts hparts (by simp) name (mem_reverse.mp hname)

theorem plainName_normalise_split (p : String) : ∀ name ∈ normalise (split p '/'), PlainName name :=
  plainName_normalise fun _ => not_mem_of_mem_split

variable {names : List String} (h : ∀ name ∈ names, PlainName name)

include h in
theorem normalise_plain : normalise names = names := by
  rw [normalise, foldl_cleanStep_plain true names h, append_nil, reverse_reverse]

/-- A path can be normalised in steps. -/
theorem normalise_append (hparts : ∀ part ∈ parts, '/' ∉ part.toList)
    (rest : List String) : normalise (parts ++ rest) = normalise (normalise parts ++ rest) := by
  have hplain := plainName_normalise hparts
  have hstart : (normalise parts).foldl (cleanStep true) [] = parts.foldl (cleanStep true) [] := by
    rw [foldl_cleanStep_plain true _ hplain, normalise, reverse_reverse, append_nil]
  rw [normalise, normalise, foldl_append, foldl_append, hstart]

theorem normalise_cons_empty (parts : List String) : normalise ("" :: parts) = normalise parts := by
  rw [normalise, foldl_cons, cleanStep_stay (.inl rfl), normalise]

/-! ## Texts -/

theorem split_pathText (hne : names ≠ [])
    (h : ∀ name ∈ names, PlainName name) : split (pathText names) '/' = names :=
  split_join hne fun name hname => (h name hname).2.2.2

theorem pathText_nil : pathText [] = "" := rfl

theorem pathText_ne_empty (hne : names ≠ [])
    (h : ∀ name ∈ names, PlainName name) : pathText names ≠ "" := by
  intro hempty
  have hsplit := split_pathText hne h
  rw [hempty] at hsplit
  have hmem : "" ∈ names := by
    rw [← hsplit]
    decide
  exact (h "" hmem).1 rfl

include h in
/-- Plain names can be read back from the text. -/
theorem pathText_injective {names' : List String}
    (h' : ∀ name ∈ names', PlainName name) (heq : pathText names = pathText names') :
    names = names' := by
  by_cases hnil : names = []
  · subst hnil
    by_cases hnil' : names' = []
    · exact hnil'.symm
    · exact absurd heq.symm (pathText_ne_empty hnil' h')
  by_cases hnil' : names' = []
  · subst hnil'
    exact absurd heq (pathText_ne_empty hnil h)
  · rw [← split_pathText hnil h, heq, split_pathText hnil' h']

theorem split_slash_append (p : String) : split ("/" ++ p) '/' = "" :: split p '/' := by
  have happend := split_append "" p
  exact happend

theorem hasPrefix_slash_append (p : String) : hasPrefix ("/" ++ p) "/" = true := by
  simp [hasPrefix]

theorem cleanComponents_slash_append (p : String) :
    cleanComponents ("/" ++ p) = normalise (split p '/') := by
  rw [cleanComponents, split_slash_append, hasPrefix_slash_append, foldl_cons,
    cleanStep_stay (.inl rfl), normalise]

theorem clean_slash_append (p : String) :
    clean ("/" ++ p) = "/" ++ pathText (normalise (split p '/')) := by
  rw [clean, hasPrefix_slash_append, cleanComponents_slash_append]
  rfl

theorem cleanPath_eq (p : String) : cleanPath p = pathText (normalise (split p '/')) := by
  rw [cleanPath, clean_slash_append]
  apply toList_injective
  rw [trimPrefix, cutPrefix, if_pos (hasPrefix_slash_append _)]
  simp

/-! ## Cleaning a path that is not rooted -/

/-- The scan from the root forgets the `..` that the other scan keeps. -/
theorem filter_foldl_cleanStep (parts : List String) (hparts : ∀ part ∈ parts, '/' ∉ part.toList) :
    ∀ {out : List String}, Scanned out → (parts.foldl (cleanStep false) out).filter (· ≠ "..") =
        parts.foldl (cleanStep true) (out.filter (· ≠ "..")) := by
  induction parts with
  | nil =>
    intro out _
    rfl
  | cons part rest ih =>
    intro out hout
    rw [forall_mem_cons] at hparts
    rw [foldl_cons, foldl_cons, ih hparts.2 (hout.step hparts.1)]
    congr 1
    unfold cleanStep
    by_cases hstay : part = "" ∨ part = "."
    · rw [if_pos hstay, if_pos hstay]
    rw [if_neg hstay, if_neg hstay]
    by_cases hup : part = ".."
    · rw [if_pos hup, if_pos hup]
      cases out with
      | nil => rfl
      | cons last below =>
        by_cases hlast : last = ".."
        · -- Below a `..` there are only `..`, so nothing is left of them.
          subst hlast
          have hbelow := hout.below [] below rfl
          have hnone : below.filter (· ≠ "..") = [] :=
            filter_eq_nil_iff.mpr fun other hother => by simp [hbelow other hother]
          have hkept : (".." :: below).filter (· ≠ "..") = [] := by
            rw [filter_cons_of_neg (by simp), hnone]
          rw [hkept]
          simpa using hnone
        · simp [hlast]
    · simp [hup]

variable {rest : List String}

theorem Scanned.tail {first : String} (h : Scanned (first :: rest)) : Scanned rest := by
  refine ⟨fun part hpart => h.name part (mem_cons_of_mem _ hpart), fun above below heq => ?_⟩
  exact h.below (first :: above) below (by rw [heq, cons_append])

/-- From the root, the components of a clean path lead to its names. -/
theorem foldl_cleanStep_reverse {out : List String} (h : Scanned out) :
    out.reverse.foldl (cleanStep true) [] = out.filter (· ≠ "..") := by
  induction out with
  | nil => rfl
  | cons first rest ih =>
    rw [reverse_cons, foldl_append, ih h.tail, foldl_cons, foldl_nil]
    obtain ⟨hempty, hdot, -⟩ := h.name first mem_cons_self
    by_cases hup : first = ".."
    · subst hup
      have hbelow := h.below [] rest rfl
      have hnone : rest.filter (· ≠ "..") = [] :=
        filter_eq_nil_iff.mpr fun other hother => by simp [hbelow other hother]
      rw [filter_cons_of_neg (by simp), hnone]
      rfl
    · rw [cleanStep_name (not_or.mpr ⟨hempty, hdot⟩) hup, filter_cons_of_pos (by simpa using hup)]

/-- `path.Clean` does not change where a path leads to from the root. -/
theorem normalise_split_clean (p : String) :
    normalise (split (clean p) '/') = normalise (split p '/') := by
  have hparts : ∀ part ∈ split p '/', '/' ∉ part.toList := fun _ => not_mem_of_mem_split
  by_cases hrooted : hasPrefix p "/" = true
  · -- A rooted path is cleaned to its names.
    have hnames : cleanComponents p = normalise (split p '/') := by
      rw [cleanComponents, hrooted, normalise]
    have hclean : clean p = "/" ++ pathText (normalise (split p '/')) := by
      rw [clean, hrooted, hnames]
      rfl
    have hplain := plainName_normalise hparts
    rw [hclean, split_slash_append]
    rw [normalise_cons_empty]
    by_cases hnil : normalise (split p '/') = []
    · rw [hnil]
      decide
    · rw [split_pathText hnil hplain, normalise_plain hplain]
  · rw [Bool.not_eq_true] at hrooted
    have hscan : Scanned ((split p '/').foldl (cleanStep false) []) :=
      scanned_foldl _ hparts ⟨by simp, by simp⟩
    have hfilter := @filter_foldl_cleanStep _ hparts [] ⟨by simp, by simp⟩
    have hcomps : cleanComponents p = ((split p '/').foldl (cleanStep false) []).reverse := by
      rw [cleanComponents, hrooted]
    have hnormalise : normalise (cleanComponents p) = normalise (split p '/') := by
      rw [hcomps, normalise, foldl_cleanStep_reverse hscan, hfilter]
      rfl
    cases hlist : cleanComponents p with
    | nil =>
      rw [hlist] at hnormalise
      have hdot : clean p = "." := by
        rw [clean, hrooted, hlist]
      rw [hdot, ← hnormalise]
      decide
    | cons first rest =>
      have hjoin : clean p = join (first :: rest) "/" := by
        rw [clean, hrooted, hlist]
      rw [hjoin, split_join (by simp) fun part hpart =>
        not_mem_of_mem_cleanComponents (hlist ▸ hpart),
        ← hlist, hnormalise]

theorem clean_ne_empty (p : String) : clean p ≠ "" := by
  intro hempty
  by_cases hrooted : hasPrefix p "/" = true
  · have hlen := congrArg (fun s => s.toList.length) hempty
    simp [clean, hrooted] at hlen
  rw [Bool.not_eq_true] at hrooted
  cases hlist : cleanComponents p with
  | nil =>
    rw [clean, hrooted, hlist] at hempty
    exact absurd hempty (by decide)
  | cons first rest =>
    rw [clean, hrooted, hlist] at hempty
    have hparts : split (join (first :: rest) "/") '/' = first :: rest :=
      split_join (by simp) fun part hpart => not_mem_of_mem_cleanComponents (hlist ▸ hpart)
    rw [show join (first :: rest) "/" = "" from hempty] at hparts
    have hscan : Scanned ((split p '/').foldl (cleanStep false) []) :=
      scanned_foldl _ (fun _ => not_mem_of_mem_split) ⟨by simp, by simp⟩
    have hmem : first ∈ (split p '/').foldl (cleanStep false) [] := by
      rw [← mem_reverse, ← hrooted]
      exact (show first ∈ cleanComponents p by simp [hlist])
    exact (hscan.name first hmem).1 (List.cons.inj hparts).1.symm

/-- Joining two texts joins their components. -/
theorem normalise_split_joinPath {left right : String} (hleft : left ≠ "") (hright : right ≠ "") :
    normalise (split (joinPath [left, right]) '/') =
      normalise (split left '/' ++ split right '/') := by
  rw [joinPath_pair hleft hright, normalise_split_clean, split_append]

include h in
/-- The text of names leads to the names. -/
theorem normalise_split_pathText
    (rest : List String) : normalise (split (pathText names) '/' ++ rest) = normalise
    (names ++ rest) := by
  by_cases hnil : names = []
  · subst hnil
    have hempty : split (pathText []) '/' = [""] := by decide
    rw [hempty, singleton_append, normalise_cons_empty, nil_append]
  · rw [split_pathText hnil h]

/-! ## Parts of a path -/

include h in
/-- A path of names neither starts nor ends with a separator. -/
theorem trim_pathText : trim (pathText names) "/" = pathText names := by
  -- A separator at one of the ends would leave an empty component there.
  have hedge : ∀ left right : String, pathText names = left ++ "/" ++ right →
      left ≠ "" ∧ right ≠ "" := by
    intro left right heq
    by_cases hnil : names = []
    · have hlen := congrArg (fun s => s.toList.length) heq
      simp [hnil, pathText, join] at hlen
    have hsplit := split_pathText hnil h
    rw [heq, split_append] at hsplit
    have hname : ∀ part ∈ split left '/' ++ split right '/', part ≠ "" :=
      fun part hpart => (h part (hsplit ▸ hpart)).1
    constructor
    · rintro rfl
      exact hname "" (by simp [split]) rfl
    · rintro rfl
      exact hname "" (by simp [split]) rfl
  have hkeep : ∀ {chars : List Char}, chars.head? ≠ some '/' →
      chars.dropWhile (fun c => "/".toList.contains c) = chars := by
    intro chars hhead
    cases chars with
    | nil => rfl
    | cons c rest =>
      have hc : c ≠ '/' := by simpa using hhead
      rw [dropWhile_cons_of_neg (by simpa using hc)]
  have hfirst : (pathText names).toList.head? ≠ some '/' := by
    intro hhead
    obtain ⟨rest, hrest⟩ := List.head?_eq_some_iff.mp hhead
    refine (hedge "" (String.ofList rest) (toList_injective ?_)).1 rfl
    simp [hrest]
  have hlast : (pathText names).toList.reverse.head? ≠ some '/' := by
    intro hhead
    obtain ⟨rest, hrest⟩ := List.head?_eq_some_iff.mp hhead
    refine (hedge (String.ofList rest.reverse) "" (toList_injective ?_)).2 rfl
    have hchars := congrArg List.reverse hrest
    simpa using hchars
  rw [trim, trimFunc, hkeep hfirst, hkeep hlast, reverse_reverse, ofList_toList]

theorem clean_pathText (hne : names ≠ []) (h : ∀ name ∈ names, PlainName name) :
    clean (pathText names) = pathText names := by
  obtain ⟨hrooted, hcomps⟩ := cleanComponents_join hne h
  simp [clean, pathText, hrooted, hcomps]

include h in
theorem joinPath_plain : joinPath names = pathText names := by
  have hfilter : names.filter (· ≠ "") = names :=
    filter_eq_self.mpr fun name hname => by simpa using (h name hname).1
  cases names with
  | nil => rfl
  | cons first rest =>
    rw [joinPath, hfilter]
    exact clean_pathText (cons_ne_nil first rest) h

include h in
/-- `path.Dir` of a rooted path of names. -/
theorem dir_slash_pathText : dir ("/" ++ pathText names) = "/" ++ pathText names.dropLast := by
  rcases eq_nil_or_concat names with rfl | ⟨before, name, rfl⟩
  · decide
  rw [concat_eq_append] at h ⊢
  have hslash : ∀ other ∈ before ++ [name], '/' ∉ other.toList :=
    fun other hother => (h other hother).2.2.2
  have hbefore : ∀ other ∈ before, PlainName other := fun other hother => h other (by simp [hother])
  have hstay : ∀ p : String, clean ("/" ++ p ++ "/") = clean ("/" ++ p) := by
    intro p
    have hsplit : split (p ++ "/") '/' = split p '/' ++ [""] := by
      have happend := split_append p ""
      rw [append_empty] at happend
      rw [happend]
      rfl
    rw [String.append_assoc, clean_slash_append, clean_slash_append, hsplit, normalise,
      foldl_append, foldl_cons, foldl_nil, cleanStep_stay (.inl rfl), normalise]
  have hcut : cutLast ("/" ++ pathText (before ++ [name])) '/' =
      some (if before = [] then "" else "/" ++ pathText before, name) := by
    split
    · next hnil =>
      subst hnil
      have hone : "/" ++ pathText ([] ++ [name]) = "" ++ "/" ++ name := by
        simp [pathText, join]
      rw [hone, cutLast_append (hslash name (by simp))]
    next hne =>
    rw [pathText, join_concat hne (fun other hother => hslash other (by simp [hother]))
      (hslash name (by simp)), ← String.append_assoc, ← String.append_assoc,
      cutLast_append (hslash name (by simp))]
    rfl
  rw [dir, hcut, dropLast_concat]
  dsimp only
  split
  · next hnil =>
    subst hnil
    decide
  · next hne =>
    rw [hstay, clean_slash_append, split_pathText hne hbefore, normalise_plain hbefore]

/-! ## Directories -/

theorem pathText_append (hne : names ≠ []) (hrest : rest ≠ [])
    (h : ∀ name ∈ names ++ rest, PlainName name) :
    pathText (names ++ rest) = pathText names ++ "/" ++ pathText rest := by
  have hnames : ∀ name ∈ names, PlainName name := fun name hname => h name (by simp [hname])
  have hothers : ∀ name ∈ rest, PlainName name := fun name hname => h name (by simp [hname])
  rw [← join_split (pathText names ++ "/" ++ pathText rest),
    split_append, split_pathText hne hnames,
    split_pathText hrest hothers, pathText]

/-- A path is at or below a directory. -/
def Below (directory path : String) : Prop :=
  directory = "" ∨ directory = path ∨ hasPrefix path (directory ++ "/") = true

instance (directory path : String) : Decidable (Below directory path) :=
  inferInstanceAs (Decidable (_ ∨ _ ∨ _))

include h in
/-- The directories above a path of names are its initial parts. -/
theorem below_pathText_iff {directory : String} :
    Below directory (pathText names) ↔ ∃ above rest, names = above ++ rest ∧
      directory = pathText above := by
  constructor
  · rintro (rfl | rfl | hprefix)
    · exact ⟨[], names, rfl, rfl⟩
    · exact ⟨names, [], by simp, rfl⟩
    obtain ⟨rest, hrest⟩ := isPrefixOf_iff_prefix.mp hprefix
    have htext : pathText names = directory ++ "/" ++ String.ofList rest := by
      apply toList_injective
      simp [← hrest]
    have hne : names ≠ [] := by
      rintro rfl
      have hlen := congrArg (fun s => s.toList.length) htext
      simp [pathText_nil] at hlen
    have hsplit := split_pathText hne h
    rw [htext, split_append] at hsplit
    refine ⟨split directory '/', split (String.ofList rest) '/', hsplit.symm, ?_⟩
    rw [pathText, join_split]
  · rintro ⟨above, rest, rfl, rfl⟩
    by_cases habove : above = []
    · subst habove
      exact .inl rfl
    by_cases hrest : rest = []
    · subst hrest
      exact .inr (.inl (by rw [append_nil]))
    refine .inr (.inr ?_)
    have htext : (pathText (above ++ rest)).toList =
        (pathText above ++ "/").toList ++ (pathText rest).toList := by
      rw [pathText_append habove hrest h, toList_append]
    rw [hasPrefix, isPrefixOf_iff_prefix, htext]
    exact prefix_append _ _

end Atum.Go
