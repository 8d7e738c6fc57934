import Atum.Images.Reference

/-!
# Giving a reference another tag

`replaceImageTag` reads the repository of a reference with `imageRepository` and
writes it with the new tag.  The repository comes out in the form the updater
prefers: without quotes and blanks around it, and with `docker.io` for
`index.docker.io`.

For a reference with an explicit registry host the form is stable
(`Hosted.replaceImageTag_eq`): another call with the same tag changes nothing.
`Registry` stands for the parsers of the registry library, and `Registry.Lawful`
says what is used of them.
-/

namespace Atum.Images

open Atum.Go Atum.Config List

/-- The parsers of the registry library, with weak validation. -/
structure Registry where
  parseReference : String → Bool
  newTag : String → Bool

/-- The characters of a tag. -/
def tagChar (c : Char) : Bool := c.isAlphanum || "_-.".toList.contains c

/-- What the registry library accepts as a tagged reference. -/
structure Registry.Lawful (registry : Registry) : Prop where
  parseReference_of_newTag : ∀ reference, registry.newTag reference = true →
    registry.parseReference reference = true
  plain : ∀ reference, registry.newTag reference = true → '\x00' ∉ reference.toList
  tag : ∀ repository tag, ':' ∉ tag.toList → '/' ∉ tag.toList →
    registry.newTag (repository ++ ":" ++ tag) = true → ∀ c ∈ tag.toList, tagChar c = true
  repository : ∀ repository tag, ':' ∉ tag.toList → '/' ∉ tag.toList →
    registry.newTag (repository ++ ":" ++ tag) = true → cutTag repository = none

def replaceImageTag (registry : Registry) (reference tag : String) : Except String String :=
  if !validImageReference registry.parseReference reference || contains reference "@" || tag = "" ||
      containsAny tag "@/: " then
    .error ("cannot replace tag in image reference " ++ quote reference)
  else
    let candidate := imageRepository reference ++ ":" ++ tag
    if registry.newTag candidate then .ok candidate
    else .error ("replace tag in image reference " ++ quote reference)

/-! ## References with a host -/

/-- The characters of a registry host and its port. -/
def hostChar (c : Char) : Bool := c.isAlphanum || ".-:_[]".toList.contains c

/-- A host that cannot be taken for the first part of a repository on `docker.io`. -/
def ExplicitHost (host : String) : Prop :=
  (∀ c ∈ host.toList, hostChar c = true) ∧ (host = "localhost" ∨ containsAny host ".:" = true)

instance (host : String) : Decidable (ExplicitHost host) :=
  @instDecidableAnd _ _ (List.decidableBAll _ _) inferInstance

/-- The reference carries an explicit registry host. -/
def Hosted (reference : String) : Prop :=
  ∃ host path, reference = host ++ "/" ++ path ∧ ExplicitHost host

/-- The host as `imageRepository` writes it. -/
def canonicalHost (host : String) : String :=
  if host = "index.docker.io" then "docker.io" else host

variable {host : String}

theorem ExplicitHost.ne_nil (h : ExplicitHost host) : host.toList ≠ [] := by
  rcases h.2 with rfl | hany
  · decide
  · intro hnil
    simp [containsAny, hnil] at hany

theorem ExplicitHost.not_mem_slash (h : ExplicitHost host) : '/' ∉ host.toList := by
  intro hmem
  exact absurd (h.1 _ hmem) (by decide)

theorem explicitHost_canonical (h : ExplicitHost host) : ExplicitHost (canonicalHost host) := by
  unfold canonicalHost
  by_cases hdocker : host = "index.docker.io"
  · rw [if_pos hdocker]
    exact ⟨forall_mem_of_all (by decide), .inr (by decide)⟩
  · rw [if_neg hdocker]
    exact h

variable {p : Char → Bool}

/-- A text with a host is trimmed at its end only. -/
theorem trimFunc_hosted (path : String) (h : ExplicitHost host)
    (hp : ∀ c, hostChar c = true ∨ c = '/' → p c = false) :
    ∃ rest, trimFunc (host ++ "/" ++ path) p = host ++ "/" ++ rest ∧
      rest.toList <+: path.toList := by
  obtain ⟨c, cs, hcs⟩ := exists_cons_of_ne_nil h.ne_nil
  have hc : p c = false := hp c (.inl (h.1 c (hcs ▸ mem_cons_self ..)))
  have htext : (host ++ "/" ++ path).toList = host.toList ++ '/' :: path.toList := by
    simp [String.toList_append]
  have hstart : (host ++ "/" ++ path).toList.dropWhile p = host.toList ++ '/' :: path.toList := by
    rw [htext, hcs, cons_append, dropWhile_cons_of_neg (by simp [hc])]
  have hend : ∀ left : List Char, (left ++ '/' :: host.toList.reverse).dropWhile p =
      left.dropWhile p ++ '/' :: host.toList.reverse := by
    intro left
    induction left with
    | nil => exact dropWhile_cons_of_neg (by simp [hp '/' (.inr rfl)])
    | cons d left ih =>
      cases hd : p d with
      | true =>
        rw [cons_append, dropWhile_cons_of_pos hd, dropWhile_cons_of_pos hd]
        exact ih
      | false =>
        rw [cons_append, dropWhile_cons_of_neg (by simp [hd]),
          dropWhile_cons_of_neg (by simp [hd])]
        rfl
  refine ⟨String.ofList (path.toList.reverse.dropWhile p).reverse, ?_, ?_⟩
  · rw [trimFunc, hstart]
    apply String.toList_inj.mp
    simp [String.toList_append, hend]
  · rw [String.toList_ofList, ← reverse_suffix, reverse_reverse]
    exact dropWhile_suffix _

variable {c : Char}

/-- The characters of hosts, paths and tags are between `-` and `z`. -/
theorem between_of_hostChar (h : hostChar c = true ∨ tagChar c = true ∨ c = '/') :
    45 ≤ c.toNat ∧ c.toNat ≤ 122 := by
  have halpha : c.isAlphanum = true → 45 ≤ c.toNat ∧ c.toNat ≤ 122 := by
    intro hc
    simp only [Char.isAlphanum, isAlpha_eq, Char.isDigit,
      Bool.or_eq_true, Bool.and_eq_true, decide_eq_true_eq, UInt32.le_iff_toNat_le] at hc
    simp at hc
    omega
  have hlist : ∀ d ∈ ".-:_[]/".toList, 45 ≤ d.toNat ∧ d.toNat ≤ 122 := forall_mem_of_all (by decide)
  rcases h with h | h | rfl
  · rcases Bool.or_eq_true_iff.mp h with h | h
    · exact halpha h
    refine hlist c ?_
    revert h
    simp only [contains_iff_mem]
    exact fun h => mem_of_mem_dropLast h
  · rcases Bool.or_eq_true_iff.mp h with h | h
    · exact halpha h
    · refine hlist c ?_
      have hsub : ∀ d ∈ "_-.".toList, d ∈ ".-:_[]/".toList := forall_mem_of_all (by decide)
      exact hsub c (contains_iff_mem.mp h)
  · decide

theorem not_trimmed (h : 45 ≤ c.toNat ∧ c.toNat ≤ 122) :
    "\"'".toList.contains c = false ∧ isSpace c = false := by
  constructor
  · rw [Bool.eq_false_iff, Ne, contains_iff_mem]
    intro hmem
    have hall : ∀ d ∈ "\"'".toList, d.toNat < 45 := forall_mem_of_all (by decide)
    have := hall c hmem
    omega
  · unfold isSpace
    simp
    omega

theorem bareReference_hosted (path : String) (h : ExplicitHost host) :
    ∃ rest, bareReference (host ++ "/" ++ path) = host ++ "/" ++ rest ∧
      rest.toList <+: path.toList := by
  have hplain : ∀ c, hostChar c = true ∨ c = '/' →
      "\"'".toList.contains c = false ∧ isSpace c = false :=
    fun c hc => not_trimmed (between_of_hostChar (hc.imp id Or.inr))
  obtain ⟨inner, hinner, hstart⟩ := trimFunc_hosted path h fun c hc => (hplain c hc).1
  obtain ⟨rest, hrest, hend⟩ := trimFunc_hosted inner h fun c hc => (hplain c hc).2
  refine ⟨rest, ?_, hend.trans hstart⟩
  unfold bareReference trimSpace trim
  rw [hinner, hrest]

variable {right left : List Char}

/-- The part before a text without a slash ends after the first slash. -/
theorem append_slash_split {before after : List Char} (hafter : '/' ∉ after)
    (h : left ++ '/' :: right = before ++ after) :
    ∃ path, before = left ++ '/' :: path ∧ right = path ++ after := by
  rcases append_eq_append_iff.mp h with ⟨middle, hbefore, hmiddle⟩ | ⟨middle, -, hmiddle⟩
  · cases middle with
    | nil =>
      rw [nil_append] at hmiddle
      exact absurd (hmiddle ▸ mem_cons_self ..) hafter
    | cons c path =>
      obtain ⟨rfl, hright⟩ := List.cons.inj hmiddle
      exact ⟨path, hbefore, hright⟩
  · exact absurd (hmiddle ▸ mem_append_right _ (mem_cons_self ..)) hafter

/-- A reference with a host is cut into repository and tag behind the host. -/
theorem cutTag_hosted (host rest : String) : cutTag (host ++ "/" ++ rest) = none ∨ ∃ path tag,
      cutTag (host ++ "/" ++ rest) = some (host ++ "/" ++ path, tag) ∧
        rest = path ++ ":" ++ tag := by
  unfold cutTag
  cases hlast : cutLast (host ++ "/" ++ rest) ':' with
  | none => exact .inl rfl
  | some pair =>
    obtain ⟨left, right⟩ := pair
    by_cases hslash : '/' ∈ right.toList
    · simp [hslash]
    right
    obtain ⟨htext, -⟩ := cutLast_eq_some hlast
    have hchars : host.toList ++ '/' :: rest.toList = left.toList ++ (':' :: right.toList) := by
      have := congrArg String.toList htext
      simpa [String.toList_append] using this
    obtain ⟨path, hleft, hrest⟩ := append_slash_split (by simp [hslash]) hchars
    have heq : left = host ++ "/" ++ String.ofList path := by
      apply String.toList_inj.mp
      simp [String.toList_append, hleft]
    refine ⟨String.ofList path, right, by simp only [if_neg hslash, heq], ?_⟩
    apply String.toList_inj.mp
    simp [String.toList_append, hrest]

/-- The end of `imageRepository`: the repository with its registry. -/
def qualified (reference : String) : String :=
  if reference = "" ∨ reference = "auto" then reference
  else
    match cut reference '/' with
    | none => "docker.io/library/" ++ reference
    | some (registry, remainder) =>
      if registry = "docker.io" ∨ registry = "index.docker.io" then "docker.io/" ++ remainder
      else if registry ≠ "localhost" ∧ ¬containsAny registry ".:" then "docker.io/" ++ reference
      else reference

variable {reference bare : String}

theorem imageRepository_of_none (hbare : bareReference reference = bare)
    (hat : cut bare '@' = none) (hcut : cutTag bare = none) :
    imageRepository reference = qualified bare := by
  simp only [imageRepository, hbare, hat, hcut]
  rfl

variable {tag repository : String}

theorem imageRepository_of_some (hbare : bareReference reference = bare) (hat : cut bare '@' = none)
    (hcut : cutTag bare = some (repository, tag)) :
    imageRepository reference = qualified repository := by
  simp only [imageRepository, hbare, hat, hcut]
  rfl

theorem qualified_hosted (path : String) (h : ExplicitHost host) :
    qualified (host ++ "/" ++ path) = canonicalHost host ++ "/" ++ path := by
  have hslash : cut (host ++ "/" ++ path) '/' = some (host, path) :=
    cut_append_of_not_mem rfl h.not_mem_slash
  have hmem : '/' ∈ (host ++ "/" ++ path).toList := by simp [String.toList_append]
  have hne : ¬(host ++ "/" ++ path = "" ∨ host ++ "/" ++ path = "auto") := by
    rintro (heq | heq)
    · rw [heq] at hmem
      exact absurd hmem (by decide)
    · rw [heq] at hmem
      exact absurd hmem (by decide)
  simp only [qualified, if_neg hne, hslash]
  unfold canonicalHost
  by_cases hidx : host = "index.docker.io"
  · rw [if_pos (.inr hidx), if_pos hidx]
    rfl
  rw [if_neg hidx]
  by_cases hdocker : host = "docker.io"
  · rw [hdocker]
    rfl
  · rw [if_neg (not_or.mpr ⟨hdocker, hidx⟩), if_neg]
    rintro ⟨hlocal, hany⟩
    exact hany (h.2.resolve_left hlocal)

variable {path : String}

/-- The repository of a reference with a host is the host and the path up to the
tag. -/
theorem imageRepository_hosted (h : ExplicitHost host) (hat : '@' ∉ (host ++ "/" ++ path).toList) :
    ∃ path' tail, imageRepository (host ++ "/" ++ path) = canonicalHost host ++ "/" ++ path' ∧
      bareReference (host ++ "/" ++ path) = host ++ "/" ++ path' ++ tail ∧
      path'.toList ⊆ path.toList := by
  obtain ⟨rest, hbare, hstart⟩ := bareReference_hosted path h
  have hnone : cut (host ++ "/" ++ rest) '@' = none := by
    refine cut_eq_none_iff.mpr fun hmem => hat ?_
    simp only [String.toList_append, mem_append] at hmem ⊢
    exact hmem.imp id fun h => hstart.subset h
  rcases cutTag_hosted host rest with hcut | ⟨path', tag, hcut, hrest⟩
  · refine ⟨rest, "", ?_, by rw [hbare, String.append_empty], hstart.subset⟩
    rw [imageRepository_of_none hbare hnone hcut, qualified_hosted rest h]
  refine ⟨path', ":" ++ tag, ?_, by rw [hbare, hrest]; simp only [String.append_assoc], ?_⟩
  · rw [imageRepository_of_some hbare hnone hcut, qualified_hosted path' h]
  intro c hc
  refine hstart.subset ?_
  rw [hrest, String.toList_append, String.toList_append]
  exact mem_append_left _ (mem_append_left _ hc)

/-! ## References with a new tag -/

/-- A tag as `replaceImageTag` writes it. -/
def PlainTag (tag : String) : Prop := tag ≠ "" ∧ ∀ c ∈ tag.toList, tagChar c = true

theorem PlainTag.not_mem (h : PlainTag tag) :
    ':' ∉ tag.toList ∧ '/' ∉ tag.toList ∧ '@' ∉ tag.toList := by
  refine ⟨fun hmem => ?_, fun hmem => ?_, fun hmem => ?_⟩
  · exact absurd (h.2 _ hmem) (by decide)
  · exact absurd (h.2 _ hmem) (by decide)
  · exact absurd (h.2 _ hmem) (by decide)

theorem cutTag_append (hcolon : ':' ∉ tag.toList)
    (hslash : '/' ∉ tag.toList) : cutTag (repository ++ ":" ++ tag) = some (repository, tag) := by
  have hcut : cutLast (repository ++ ":" ++ tag) ':' = some (repository, tag) :=
    cutLast_append_of_not_mem rfl hcolon
  simp [cutTag, hcut, if_neg hslash]

/-- A text with a host and a tag has nothing to trim. -/
theorem trimFunc_tagged (h : ExplicitHost host)
    (htag : PlainTag tag) (hp : ∀ c, hostChar c = true ∨ tagChar c = true → p c = false) :
    trimFunc (host ++ "/" ++ path ++ ":" ++ tag) p = host ++ "/" ++ path ++ ":" ++ tag := by
  obtain ⟨c, cs, hcs⟩ := exists_cons_of_ne_nil h.ne_nil
  have hc : p c = false := hp c (.inl (h.1 c (hcs ▸ mem_cons_self ..)))
  have hne : tag.toList.reverse ≠ [] := by
    simpa using htag.1
  obtain ⟨d, ds, hds⟩ := exists_cons_of_ne_nil hne
  have hd : p d = false :=
    hp d (.inr (htag.2 d (mem_reverse.mp (hds ▸ mem_cons_self ..))))
  have htext : (host ++ "/" ++ path ++ ":" ++ tag).toList =
      c :: (cs ++ '/' :: (path.toList ++ ':' :: tag.toList)) := by
    simp [String.toList_append, hcs]
  have hreverse : (c :: (cs ++ '/' :: (path.toList ++ ':' :: tag.toList))).reverse =
      d :: (ds ++ ':' :: (path.toList.reverse ++ '/' :: (cs.reverse ++ [c]))) := by
    simp [hds]
  apply String.toList_inj.mp
  rw [trimFunc, String.toList_ofList, htext, dropWhile_cons_of_neg (by simp [hc]), hreverse,
    dropWhile_cons_of_neg (by simp [hd]), ← hreverse, reverse_reverse]

theorem bareReference_tagged (path : String) (h : ExplicitHost host) (htag : PlainTag tag) :
    bareReference (host ++ "/" ++ path ++ ":" ++ tag) = host ++ "/" ++ path ++ ":" ++ tag := by
  have hplain : ∀ c, hostChar c = true ∨ tagChar c = true →
      "\"'".toList.contains c = false ∧ isSpace c = false :=
    fun c hc => not_trimmed (between_of_hostChar (hc.imp id Or.inl))
  unfold bareReference trimSpace trim
  rw [trimFunc_tagged h htag fun c hc => (hplain c hc).1,
    trimFunc_tagged h htag fun c hc => (hplain c hc).2]

theorem PlainTag.cut_tagged (htag : PlainTag tag) (hat : '@' ∉ repository.toList) :
    cut (repository ++ ":" ++ tag) '@' = none := by
  refine cut_eq_none_iff.mpr fun hmem => ?_
  rw [String.toList_append, String.toList_append, mem_append, mem_append] at hmem
  rcases hmem with (hmem | hmem) | hmem
  · exact hat hmem
  · exact absurd hmem (by decide)
  · exact htag.not_mem.2.2 hmem

theorem imageRepository_tagged (h : ExplicitHost host)
    (htag : PlainTag tag) (hat : '@' ∉ (host ++ "/" ++ path).toList) :
    imageRepository (host ++ "/" ++ path ++ ":" ++ tag) = canonicalHost host ++ "/" ++ path := by
  obtain ⟨hcolon, hslash, -⟩ := htag.not_mem
  rw [imageRepository_of_some (bareReference_tagged path h htag) (htag.cut_tagged hat)
    (cutTag_append hcolon hslash),
    qualified_hosted path h]

variable {pattern : List Char}

/-- A pattern is found behind a text that lacks its first character. -/
theorem infix_of_head_not_mem (hc : c ∉ left)
    (h : c :: pattern <:+: left ++ right) : c :: pattern <:+: right := by
  induction left with
  | nil => exact h
  | cons d left ih =>
    rcases infix_cons_iff.mp h with hstart | hrest
    · rw [cons_prefix_cons] at hstart
      exact absurd (hstart.1 ▸ mem_cons_self ..) hc
    · exact ih (fun hmem => hc (mem_cons_of_mem _ hmem)) hrest

/-- A pattern is found before a text that lacks its last character. -/
theorem infix_of_last_not_mem (hc : c ∉ right)
    (h : pattern ++ [c] <:+: left ++ right) : pattern ++ [c] <:+: left := by
  induction right using List.reverseRecOn with
  | nil => rwa [append_nil] at h
  | append_singleton right d ih =>
    rw [← append_assoc, infix_concat_iff] at h
    rcases h with hend | hrest
    · obtain ⟨rest, hrest⟩ := hend
      rw [← append_assoc] at hrest
      have hlast : c = d := (append_inj' hrest rfl).2 |> singleton_inj.mp
      exact absurd (hlast ▸ by simp) hc
    · exact ih (fun hmem => hc (by simp [hmem])) hrest

variable {tail : String}

/-- A text with a new host and a new tag contains a pattern only if the old text
does, when the pattern's ends are not in the host and the tag. -/
theorem contains_retagged {pattern : String} {first last : Char}
    (front back : List Char) (hfront : pattern.toList = first :: back)
    (hback : pattern.toList = front ++ [last]) (hfirst : first ∉ "docker.io/".toList)
    (hlast : last ∉ ':' :: tag.toList)
    (h : contains (host ++ "/" ++ path ++ tail) pattern = false) :
    contains (canonicalHost host ++ "/" ++ path ++ ":" ++ tag) pattern = false := by
  rw [Bool.eq_false_iff, Ne, contains_iff] at h ⊢
  intro hin
  have hpath : pattern.toList <:+: (canonicalHost host ++ "/" ++ path).toList := by
    have htext : (canonicalHost host ++ "/" ++ path ++ ":" ++ tag).toList =
        (canonicalHost host ++ "/" ++ path).toList ++ (':' :: tag.toList) := by
      simp [String.toList_append]
    rw [htext, hback] at hin
    rw [hback]
    exact infix_of_last_not_mem hlast hin
  have hold : (host ++ "/" ++ path ++ tail).toList = (host ++ "/" ++ path).toList ++ tail.toList :=
    String.toList_append
  rw [hold] at h
  refine h (List.IsInfix.trans ?_ (prefix_append _ _).isInfix)
  unfold canonicalHost at hpath
  by_cases hidx : host = "index.docker.io"
  · rw [if_pos hidx, hfront, String.toList_append] at hpath
    rw [hfront, String.toList_append]
    exact (infix_of_head_not_mem hfirst hpath).trans (suffix_append _ _).isInfix
  · rw [if_neg hidx] at hpath
    exact hpath

theorem canonicalHost_canonical (host : String) :
    canonicalHost (canonicalHost host) = canonicalHost host := by
  unfold canonicalHost
  by_cases h : host = "index.docker.io"
  · rw [if_pos h, if_neg (by decide)]
  · rw [if_neg h, if_neg h]

/-- The literal checks of `validImageReference`, on the trimmed reference. -/
theorem validImageReference_iff {parses : String → Bool} (hbare : bareReference reference = bare) :
    validImageReference parses reference = true ↔ bare ≠ "" ∧ contains bare "://" = false ∧
      contains bare "\x7b\x7b" = false ∧ containsAny bare " \t\r\n$" = false ∧
      parses bare = true := by
  simp only [validImageReference, hbare, Bool.and_eq_true, bne_iff_ne, Bool.not_eq_true']
  constructor
  · rintro ⟨⟨⟨⟨hne, hscheme⟩, hbraces⟩, hblanks⟩, hparses⟩
    exact ⟨hne, hscheme, hbraces, hblanks, hparses⟩
  · rintro ⟨hne, hscheme, hbraces, hblanks, hparses⟩
    exact ⟨⟨⟨⟨hne, hscheme⟩, hbraces⟩, hblanks⟩, hparses⟩

variable {registry : Registry}

/-- A valid reference stays valid with another tag. -/
theorem validImageReference_retagged (hlaw : registry.Lawful) (hhost : ExplicitHost host)
    (htag : PlainTag tag) (hbare : bareReference reference = host ++ "/" ++ path ++ tail)
    (hvalid : validImageReference registry.parseReference reference = true)
    (hnew : registry.newTag (canonicalHost host ++ "/" ++ path ++ ":" ++ tag) = true) :
    validImageReference registry.parseReference
      (canonicalHost host ++ "/" ++ path ++ ":" ++ tag) = true := by
  obtain ⟨-, hscheme, hbraces, hblanks, -⟩ := (validImageReference_iff hbare).mp hvalid
  have hhost' := explicitHost_canonical hhost
  refine (validImageReference_iff (bareReference_tagged path hhost' htag)).mpr
    ⟨?_, ?_, ?_, ?_, hlaw.parseReference_of_newTag _ hnew⟩
  · intro hempty
    have hmem : ':' ∈ (canonicalHost host ++ "/" ++ path ++ ":" ++ tag).toList := by
      simp [String.toList_append]
    rw [hempty] at hmem
    exact absurd hmem (by decide)
  · have hslash : '/' ∉ ':' :: tag.toList := by simp [htag.not_mem.2.1]
    exact contains_retagged [':', '/'] ['/', '/'] rfl rfl (by decide) hslash
      hscheme
  · have hbrace : '\x7b' ∉ ':' :: tag.toList := by
      intro hmem
      rcases mem_cons.mp hmem with heq | hmem
      · exact absurd heq (by decide)
      · exact absurd (htag.2 _ hmem) (by decide)
    exact contains_retagged ['\x7b'] ['\x7b'] rfl rfl (by decide) hbrace
      hbraces
  rw [Bool.eq_false_iff] at hblanks ⊢
  intro hany
  obtain ⟨c, hc, hin⟩ := any_eq_true.mp hany
  have hsmall : ∀ d ∈ " \t\r\n$".toList, ¬(45 ≤ d.toNat ∧ d.toNat ≤ 122) :=
    forall_mem_of_all (by decide)
  have hplain := hsmall c (contains_iff_mem.mp hin)
  simp only [String.toList_append, mem_append] at hc
  rcases hc with (((hc | hc) | hc) | hc) | hc
  · exact hplain (between_of_hostChar (.inl (hhost'.1 c hc)))
  · rw [mem_singleton.mp hc] at hplain
    exact hplain (by decide)
  · refine hblanks (any_eq_true.mpr ⟨c, ?_, hin⟩)
    simp only [String.toList_append, mem_append]
    exact .inl (.inr hc)
  · rw [mem_singleton.mp hc] at hplain
    exact hplain (by decide)
  · exact hplain (between_of_hostChar (.inr (.inl (htag.2 c hc))))

variable {target : String}

theorem replaceImageTag_ok (h : replaceImageTag registry reference tag = .ok target) :
    target = imageRepository reference ++ ":" ++ tag ∧ registry.newTag target = true ∧
      validImageReference registry.parseReference reference = true ∧ '@' ∉ reference.toList ∧
      tag ≠ "" ∧ ':' ∉ tag.toList ∧ '/' ∉ tag.toList := by
  unfold replaceImageTag at h
  split at h
  · cases h
  rename_i hchecks
  simp only [Bool.or_eq_true, Bool.not_eq_true', decide_eq_true_eq, not_or,
    Bool.not_eq_false, Bool.not_eq_true] at hchecks
  obtain ⟨⟨⟨hvalid, hat⟩, hne⟩, hany⟩ := hchecks
  have hno : ∀ c ∈ "@/: ".toList, c ∉ tag.toList := by
    intro c hc hmem
    rw [Bool.eq_false_iff] at hany
    exact hany (any_eq_true.mpr ⟨c, hmem, contains_iff_mem.mpr hc⟩)
  have hat' : '@' ∉ reference.toList := by
    rw [Bool.eq_false_iff, Ne, contains_iff] at hat
    exact fun hmem => hat ((singleton_infix_iff _ _).mpr hmem)
  simp only at h
  split at h
  · rename_i hnew
    obtain rfl := Except.ok.inj h
    exact ⟨rfl, hnew, hvalid, hat', hne, hno ':' (by decide), hno '/' (by decide)⟩
  · cases h

theorem replaceImageTag_eq_ok
    (hvalid : validImageReference registry.parseReference reference = true)
    (hat : '@' ∉ reference.toList) (htag : PlainTag tag)
    (hnew : registry.newTag (imageRepository reference ++ ":" ++ tag) = true) :
    replaceImageTag registry reference tag = .ok (imageRepository reference ++ ":" ++ tag) := by
  have hcontains : contains reference "@" = false := by
    rw [Bool.eq_false_iff, Ne, contains_iff]
    exact fun hin => hat ((singleton_infix_iff _ _).mp hin)
  have hany : containsAny tag "@/: " = false := by
    rw [Bool.eq_false_iff]
    intro hany
    obtain ⟨c, hc, hin⟩ := any_eq_true.mp hany
    have hall : ∀ d ∈ "@/: ".toList, tagChar d = false := forall_mem_of_all (by decide)
    exact absurd (htag.2 c hc) (by rw [hall c (contains_iff_mem.mp hin)]; decide)
  simp [replaceImageTag, hvalid, hcontains, htag.1, hany, hnew]

/-- What `replaceImageTag` does to a reference with a host, and that it does
nothing more when it is called again. -/
theorem Hosted.replaceImageTag_eq (hlaw : registry.Lawful) (hhosted : Hosted reference)
    (h : replaceImageTag registry reference tag = .ok target) :
    Hosted target ∧ PlainTag tag ∧ '@' ∉ (imageRepository reference).toList ∧
      (∃ host path, ExplicitHost host ∧ imageRepository reference = host ++ "/" ++ path) ∧
      replaceImageTag registry target tag = .ok target := by
  obtain ⟨host, path, rfl, hhost⟩ := hhosted
  obtain ⟨rfl, hnew, hvalid, hat, hne, hcolon, hslash⟩ := replaceImageTag_ok h
  obtain ⟨path', tail, hrepo, hbare, hpath⟩ := imageRepository_hosted hhost hat
  have htag : PlainTag tag := ⟨hne, hlaw.tag _ tag hcolon hslash hnew⟩
  have hhost' := explicitHost_canonical hhost
  have hat' : '@' ∉ (canonicalHost host ++ "/" ++ path').toList := by
    rw [String.toList_append, String.toList_append, mem_append, mem_append]
    rintro ((hmem | hmem) | hmem)
    · exact absurd (hhost'.1 _ hmem) (by decide)
    · exact absurd hmem (by decide)
    · refine hat ?_
      rw [String.toList_append]
      exact mem_append_right _ (hpath hmem)
  have hagain : imageRepository (canonicalHost host ++ "/" ++ path' ++ ":" ++ tag) =
      canonicalHost host ++ "/" ++ path' := by
    rw [imageRepository_tagged hhost' htag hat', canonicalHost_canonical]
  rw [hrepo] at hnew ⊢
  refine ⟨⟨canonicalHost host, path' ++ ":" ++ tag, by simp only [String.append_assoc], hhost'⟩,
    htag, hat', ⟨_, _, hhost', rfl⟩, ?_⟩
  have hvalid' := validImageReference_retagged hlaw hhost htag hbare hvalid hnew
  have hat'' : '@' ∉ (canonicalHost host ++ "/" ++ path' ++ ":" ++ tag).toList := by
    rw [String.toList_append, String.toList_append, mem_append, mem_append]
    rintro ((hmem | hmem) | hmem)
    · exact hat' hmem
    · exact absurd hmem (by decide)
    · exact htag.not_mem.2.2 hmem
  have hreplaced := replaceImageTag_eq_ok hvalid' hat'' htag (by rw [hagain]; exact hnew)
  rw [hagain] at hreplaced
  exact hreplaced

end Atum.Images
