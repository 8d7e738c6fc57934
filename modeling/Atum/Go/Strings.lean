import Mathlib.Data.List.Infix
import Mathlib.Data.List.TakeWhile
import Mathlib.Data.Nat.Digits.Defs
import Mathlib.Data.String.Basic

/-!
# The string and path functions of the Go standard library

The functions of the packages `strings`, `strconv` and `path` that the modelled
code calls, under their Go names.  Every one of them is written over the list
of characters of its argument, so that a concrete call evaluates inside the
kernel and a proof can split on the list.

A Go string is a byte string.  The strings here are Unicode text, which is what
every caller passes; `len` still counts the bytes of the UTF-8 encoding.
-/

namespace Atum.Go

open List

/-- A property of the members of a concrete list, checked by running through the list.
(Where `Char` has a `Fintype` instance, `decide` would run through all characters.) -/
theorem forall_mem_of_all {α : Type _} {p : α → Prop} [DecidablePred p] {l : List α}
    (h : l.all (fun a => decide (p a)) = true) : ∀ a ∈ l, p a :=
  fun a ha => of_decide_eq_true (all_eq_true.mp h a ha)

/-! ## The package `strings` -/

/-- `len(s)`: the number of bytes of the UTF-8 encoding. -/
def len (s : String) : Nat := s.utf8ByteSize

/-- `strings.HasPrefix`. -/
def hasPrefix (s p : String) : Bool := p.toList.isPrefixOf s.toList

/-- `strings.HasSuffix`. -/
def hasSuffix (s p : String) : Bool := p.toList.isSuffixOf s.toList

/-- `strings.CutPrefix`: the rest of `s` after `p`, if `s` starts with `p`. -/
def cutPrefix (s p : String) : Option String :=
  if hasPrefix s p then some (String.ofList (s.toList.drop p.toList.length)) else none

/-- `strings.TrimPrefix`: `s` without a leading `p`, or `s` itself. -/
def trimPrefix (s p : String) : String := (cutPrefix s p).getD s

/-- `strings.TrimSuffix`: `s` without a trailing `p`, or `s` itself. -/
def trimSuffix (s p : String) : String :=
  if hasSuffix s p then
    String.ofList (s.toList.take (s.toList.length - p.toList.length))
  else s

/-- `strings.Contains`. -/
def contains (s sub : String) : Bool :=
  s.toList.tails.any (fun rest => sub.toList.isPrefixOf rest)

/-- `strings.ContainsAny`: some character of `chars` occurs in `s`. -/
def containsAny (s chars : String) : Bool :=
  s.toList.any (fun c => chars.toList.contains c)

/-- `strings.Split` at a one-character separator. -/
def split (s : String) (sep : Char) : List String :=
  (s.toList.splitOn sep).map String.ofList

/-- `strings.Join`. -/
def join (parts : List String) (sep : String) : String := sep.intercalate parts

/-- `strings.Cut` at a one-character separator. -/
def cut (s : String) (sep : Char) : Option (String × String) :=
  match s.toList.dropWhile (· != sep) with
  | [] => none
  | _ :: after => some (String.ofList (s.toList.takeWhile (· != sep)), String.ofList after)

/-- What is before and after the last separator, as found by `strings.LastIndexByte`. -/
def cutLast (s : String) (sep : Char) : Option (String × String) :=
  match s.toList.reverse.dropWhile (· != sep) with
  | [] => none
  | _ :: before => some (String.ofList before.reverse,
      String.ofList (s.toList.reverse.takeWhile (· != sep)).reverse)

/-- `strings.TrimFunc`. -/
def trimFunc (s : String) (p : Char → Bool) : String :=
  String.ofList (((s.toList.dropWhile p).reverse.dropWhile p).reverse)

/-- `strings.Trim`. -/
def trim (s cutset : String) : String := trimFunc s fun c => cutset.toList.contains c

/-- `unicode.IsSpace`. -/
def isSpace (c : Char) : Bool :=
  (0x09 ≤ c.toNat && c.toNat ≤ 0x0d) || (0x2000 ≤ c.toNat && c.toNat ≤ 0x200a) ||
    [0x20, 0x85, 0xa0, 0x1680, 0x2028, 0x2029, 0x202f, 0x205f, 0x3000].contains c.toNat

/-- `strings.TrimSpace`. -/
def trimSpace (s : String) : String := trimFunc s isSpace

/-- `strings.Fields`: the runs of characters that are not white space. -/
def fields (s : String) : List String :=
  ((s.toList.splitOnP isSpace).filter (· ≠ [])).map String.ofList

/-- `strconv.Atoi`, on a machine with 64-bit integers. -/
def atoi (s : String) : Option Int :=
  let negative := hasPrefix s "-"
  let digits := if negative || hasPrefix s "+" then s.toList.drop 1 else s.toList
  let value := digits.foldl (fun n c => n * 10 + (c.toNat - '0'.toNat)) 0
  let number : Int := if negative then -value else value
  if digits = [] ∨ digits.all Char.isDigit = false ∨ number < -2 ^ 63 ∨ 2 ^ 63 ≤ number then none
  else some number

/-- One character inside the quotes of the verb `%q`. -/
def quoteChar (c : Char) : String :=
  match c with
  | '"' => "\\\""
  | '\\' => "\\\\"
  | '\n' => "\\n"
  | '\r' => "\\r"
  | '\t' => "\\t"
  | c => String.singleton c

/-- The verb `%q` of `fmt`, for printable text. -/
def quote (s : String) : String :=
  "\"" ++ String.join (s.toList.map quoteChar) ++ "\""

/-- `hex.EncodeToString`. -/
def hexEncode (bytes : List UInt8) : String :=
  String.ofList (bytes.flatMap fun byte =>
    [Nat.digitChar (byte.toNat / 16), Nat.digitChar (byte.toNat % 16)])

/-- The digits of a number, last one first, filled up with zeros. -/
def paddedDigits (base width n : Nat) : List Nat :=
  Nat.digits base n ++ List.replicate (width - (Nat.digits base n).length) 0

/-- The verbs `%06d` and `%04o` of `fmt` and their like: a number in a base,
with zeros in front up to a width. -/
def zeroPadded (base width n : Nat) : String :=
  String.ofList ((paddedDigits base width n).map Nat.digitChar).reverse

variable {d : Nat}

theorem digitChar_injective {e : Nat} (hd : d < 16) (he : e < 16)
    (h : Nat.digitChar d = Nat.digitChar e) : d = e := by
  have hall : ∀ a b : Fin 16, Nat.digitChar a = Nat.digitChar b → a = b := by decide
  exact congrArg Fin.val (hall ⟨d, hd⟩ ⟨e, he⟩ h)

variable {width base n : Nat}

theorem lt_of_mem_paddedDigits (hbase : 1 < base)
    (h : d ∈ paddedDigits base width n) : d < base := by
  rcases mem_append.mp h with h | h
  · exact Nat.digits_lt_base hbase h
  · rw [eq_of_mem_replicate h]
    omega

/-- Two numbers that print alike are equal. -/
theorem zeroPadded_injective (hbase : 1 < base) (hsmall : base ≤ 16) :
    Function.Injective (zeroPadded base width) := by
  intro m n h
  have hmap : (paddedDigits base width m).map Nat.digitChar =
      (paddedDigits base width n).map Nat.digitChar :=
    reverse_injective (String.ofList_injective h)
  have hdigits : paddedDigits base width m = paddedDigits base width n := by
    refine ext_getElem (by simpa using congrArg List.length hmap) fun i hm hn => ?_
    have hchar := getElem_of_eq hmap (by simpa using hm)
    rw [getElem_map, getElem_map] at hchar
    have hdigit : ∀ {k d}, d ∈ paddedDigits base width k → d < 16 :=
      fun hd => (lt_of_mem_paddedDigits hbase hd).trans_le hsmall
    exact digitChar_injective (hdigit (getElem_mem hm)) (hdigit (getElem_mem hn)) hchar
  have hval := congrArg (Nat.ofDigits base) hdigits
  simpa [paddedDigits, Nat.ofDigits_append_replicate_zero, Nat.ofDigits_digits] using hval

variable {c : Char}

/-- Only digits are printed. -/
theorem not_mem_zeroPadded (hbase : 1 < base) (hsmall : base ≤ 16)
    (hc : ∀ d < 16, Nat.digitChar d ≠ c) : c ∉ (zeroPadded base width n).toList := by
  intro hmem
  rw [zeroPadded, String.toList_ofList, mem_reverse, mem_map] at hmem
  obtain ⟨d, hd, heq⟩ := hmem
  exact hc d ((lt_of_mem_paddedDigits hbase hd).trans_le hsmall) heq

/-- The letters, by their codes. -/
theorem isAlpha_eq (c : Char) : c.isAlpha = (decide (c.val ≥ 'A'.val ∧ c.val ≤ 'Z'.val) ||
    (decide (c.val ≥ 'a'.val) && decide (c.val ≤ 'z'.val))) := rfl

variable {sep : Char} {left right : String}

/-- What follows the first separator has the later ones. -/
theorem mem_snd_cut (h : sep ∈ left.toList) :
    ∃ before after, cut (left ++ String.singleton sep ++ right) sep = some (before, after) ∧
      sep ∈ after.toList := by
  have hdrop : left.toList.dropWhile (· != sep) ≠ [] := by
    intro hnil
    have hall := dropWhile_eq_nil_iff.mp hnil sep h
    simp at hall
  obtain ⟨first, rest, hrest⟩ := exists_cons_of_ne_nil hdrop
  have htext : (left ++ String.singleton sep ++ right).toList.dropWhile (· != sep) =
      first :: (rest ++ sep :: right.toList) := by
    simp [String.toList_append, dropWhile_append, hrest]
  rw [cut, htext]
  exact ⟨_, _, rfl, by simp⟩

theorem append_ofList_inj {left right : List Char}
    (h : s ++ String.ofList left = s ++ String.ofList right) : left = right := by
  have hchars := congrArg String.toList h
  rw [String.toList_append, String.toList_append, append_cancel_left_eq,
    String.toList_ofList, String.toList_ofList] at hchars
  exact hchars

variable {p : String}

/-- A string that starts with a prefix is the prefix and the rest. -/
theorem append_trimPrefix (h : hasPrefix s p = true) : p ++ trimPrefix s p = s := by
  have hpre := isPrefixOf_iff_prefix.mp h
  apply String.toList_injective
  rw [trimPrefix, cutPrefix, if_pos h]
  simpa using prefix_iff_eq_append.mp hpre

theorem trimPrefix_append (s p : String) : trimPrefix (p ++ s) p = s := by
  have hprefix : hasPrefix (p ++ s) p = true := by simp [hasPrefix]
  have hchars := congrArg String.toList (append_trimPrefix hprefix)
  rw [String.toList_append, String.toList_append, append_cancel_left_eq] at hchars
  exact String.toList_injective hchars

/-- `strings.TrimPrefix` keeps a string that does not start with the prefix. -/
theorem trimPrefix_of_not_hasPrefix (h : hasPrefix s p = false) : trimPrefix s p = s := by
  simp [trimPrefix, cutPrefix, h]

/-! ## The package `path` -/

/-- One component of the scan of `path.Clean`.  `out` holds the components that
are kept, last one first.  An empty component and `.` disappear, `..` removes
the last kept component, and at the root of a rooted path `..` disappears. -/
def cleanStep (rooted : Bool) (out : List String) (component : String) : List String :=
  if component = "" ∨ component = "." then out
  else if component = ".." then
    match out with
    | [] => if rooted then [] else [".."]
    | last :: rest => if last = ".." then ".." :: last :: rest else rest
  else component :: out

variable {rooted : Bool} {out : List String} {component : String}

theorem cleanStep_stay
    (h : component = "" ∨ component = ".") : cleanStep rooted out component = out := if_pos h

theorem cleanStep_name (h : ¬(component = "" ∨ component = ".")) (hup : component ≠ "..") :
    cleanStep rooted out component = component :: out :=
  (if_neg h).trans (if_neg hup)

variable {last : String}

theorem cleanStep_up (h : last ≠ "..") : cleanStep rooted (last :: out) ".." = out := by
  simp [cleanStep, h]

/-- The components of the path that `path.Clean` returns. -/
def cleanComponents (p : String) : List String :=
  ((split p '/').foldl (cleanStep (hasPrefix p "/")) []).reverse

/-- `path.Clean`. -/
def clean (p : String) : String :=
  match hasPrefix p "/", cleanComponents p with
  | true, components => "/" ++ join components "/"
  | false, [] => "."
  | false, components => join components "/"

/-- `path.IsAbs`. -/
def isAbs (p : String) : Bool := hasPrefix p "/"

/-- `path.Dir`. -/
def dir (p : String) : String :=
  match cutLast p '/' with
  | none => clean ""
  | some (directory, _) => clean (directory ++ "/")

/-- `path.Join`. -/
def joinPath (elements : List String) : String :=
  match elements.filter (· ≠ "") with
  | [] => ""
  | elements => clean (join elements "/")

theorem joinPath_pair (hleft : left ≠ "") (hright : right ≠ "") :
    joinPath [left, right] = clean (left ++ "/" ++ right) := by
  have hfilter : [left, right].filter (· ≠ "") = [left, right] := by simp [hleft, hright]
  rw [joinPath, hfilter]
  rfl

/-! ## Splitting and joining paths -/

theorem not_mem_of_mem_splitOn {α : Type} [DecidableEq α] {c : α} (text : List α) :
    ∀ part ∈ text.splitOn c, c ∉ part := by
  induction text with
  | nil => simp
  | cons d rest ih =>
    intro part hpart
    rw [splitOn_cons_eq_if_modifyHead] at hpart
    split at hpart
    · rcases mem_cons.mp hpart with rfl | hpart
      · simp
      · exact ih part hpart
    next hne =>
    obtain ⟨first, others, hsplit⟩ := exists_cons_of_ne_nil (splitOn_ne_nil c rest)
    rw [hsplit] at hpart
    rw [hsplit] at ih
    rcases mem_cons.mp hpart with rfl | hpart
    · rw [mem_cons, not_or]
      exact ⟨fun heq => hne (by simp [heq]), ih first (by simp)⟩
    · exact ih part (by simp [hpart])

variable {part : String}

/-- A part of a split path has no separator in it. -/
theorem not_mem_of_mem_split (h : part ∈ split s c) : c ∉ part.toList := by
  obtain ⟨chars, hchars, rfl⟩ := mem_map.mp h
  rw [String.toList_ofList]
  exact not_mem_of_mem_splitOn _ _ hchars

/-- Every character is a separator or is in a part. -/
theorem eq_or_mem_split {d : Char} (h : d ∈ s.toList) :
    d = c ∨ ∃ part ∈ split s c, d ∈ part.toList := by
  have hchars : ∀ text : List Char, d ∈ text → d = c ∨ ∃ part ∈ text.splitOn c, d ∈ part := by
    intro text htext
    induction text with
    | nil => cases htext
    | cons e rest ih =>
      obtain ⟨first, others, hsplit⟩ := exists_cons_of_ne_nil (splitOn_ne_nil c rest)
      rw [splitOn_cons_eq_if_modifyHead]
      rw [hsplit] at ih ⊢
      split
      · next heq =>
        rcases mem_cons.mp htext with rfl | hrest
        · exact .inl (by simpa using heq)
        · obtain h | ⟨part, hpart, hd⟩ := ih hrest
          · exact .inl h
          · exact .inr ⟨part, mem_cons_of_mem _ hpart, hd⟩
      rcases mem_cons.mp htext with rfl | hrest
      · exact .inr ⟨_, mem_cons_self, mem_cons_self⟩
      obtain h | ⟨part, hpart, hd⟩ := ih hrest
      · exact .inl h
      · rcases mem_cons.mp hpart with rfl | hpart
        · exact .inr ⟨_, mem_cons_self, mem_cons_of_mem _ hd⟩
        · exact .inr ⟨part, mem_cons_of_mem _ hpart, hd⟩
  obtain heq | ⟨part, hpart, hd⟩ := hchars s.toList h
  · exact .inl heq
  · exact .inr ⟨String.ofList part, mem_map_of_mem hpart, by rwa [String.toList_ofList]⟩

theorem join_split (s : String) : join (split s '/') "/" = s := by
  apply String.toList_injective
  rw [join, String.toList_intercalate, split, map_map]
  have hid : String.toList ∘ String.ofList = id := funext fun _ => String.toList_ofList
  rw [hid, map_id]
  exact intercalate_splitOn '/'

variable {parts : List String}

theorem split_join (hne : parts ≠ [])
    (h : ∀ part ∈ parts, '/' ∉ part.toList) : split (join parts "/") '/' = parts := by
  rw [split, join, String.toList_intercalate]
  have hsep : "/".toList = ['/'] := rfl
  rw [hsep, splitOn_intercalate, map_map]
  · have hid : String.ofList ∘ String.toList = id := funext fun _ => String.ofList_toList
    rw [hid, map_id]
  · intro chars hchars
    obtain ⟨part, hpart, rfl⟩ := mem_map.mp hchars
    exact h part hpart
  · simpa using hne

variable {text : String}

theorem split_append_of_sep (htext : text.toList = [sep]) (left right : String) :
    split (left ++ text ++ right) sep = split left sep ++ split right sep := by
  rw [split, String.toList_append, String.toList_append, htext, append_assoc,
    singleton_append, splitOn_append_cons_self, map_append]
  rfl

theorem split_append (left right : String) :
    split (left ++ "/" ++ right) '/' = split left '/' ++ split right '/' :=
  split_append_of_sep rfl left right

/-- A text without a separator is one part. -/
theorem split_of_not_mem (h : sep ∉ s.toList) : split s sep = [s] := by
  rw [split, splitOn_eq_singleton h]
  simp

theorem join_concat (hne : parts ≠ [])
    (hparts : ∀ other ∈ parts, '/' ∉ other.toList) (hpart : '/' ∉ part.toList) :
    join (parts ++ [part]) "/" = join parts "/" ++ "/" ++ part := by
  rw [← join_split (join parts "/" ++ "/" ++ part), split_append, split_join hne hparts,
    split_of_not_mem hpart]

/-- A text is cut at a separator that has no other one after it. -/
theorem cutLast_append_of_not_mem (htext : text.toList = [sep]) (h : sep ∉ right.toList) :
    cutLast (left ++ text ++ right) sep = some (left, right) := by
  have hall : ∀ c ∈ right.toList.reverse, (c != sep) = true := by
    intro c hc
    rw [bne_iff_ne]
    rintro rfl
    exact h (mem_reverse.mp hc)
  have hreverse : (left ++ text ++ right).toList.reverse =
      right.toList.reverse ++ sep :: left.toList.reverse := by
    rw [String.toList_append, String.toList_append, htext]
    simp
  rw [cutLast, hreverse, dropWhile_append_of_pos hall, takeWhile_append_of_pos hall]
  simp

theorem cutLast_append (h : '/' ∉ right.toList) :
    cutLast (left ++ "/" ++ right) '/' = some (left, right) :=
  cutLast_append_of_not_mem rfl h

/-- A text is cut at a separator that has no other one before it. -/
theorem cut_append_of_not_mem (htext : text.toList = [sep]) (h : sep ∉ left.toList) :
    cut (left ++ text ++ right) sep = some (left, right) := by
  have hall : ∀ c ∈ left.toList, (c != sep) = true := by
    intro c hc
    rw [bne_iff_ne]
    rintro rfl
    exact h hc
  have hchars : (left ++ text ++ right).toList = left.toList ++ sep :: right.toList := by
    rw [String.toList_append, String.toList_append, htext]
    simp
  rw [cut, hchars, dropWhile_append_of_pos hall, takeWhile_append_of_pos hall]
  simp

theorem dropWhile_bne_eq_nil_iff {chars : List Char} :
    chars.dropWhile (· != sep) = [] ↔ sep ∉ chars := by
  rw [dropWhile_eq_nil_iff]
  constructor
  · intro hall hmem
    simpa using hall sep hmem
  intro hnot c hc
  rw [bne_iff_ne]
  rintro rfl
  exact hnot hc

theorem cut_eq_none_iff : cut s sep = none ↔ sep ∉ s.toList := by
  rw [← dropWhile_bne_eq_nil_iff, cut]
  split <;> simp_all

theorem cutLast_eq_none_iff : cutLast s sep = none ↔ sep ∉ s.toList := by
  rw [← mem_reverse, ← dropWhile_bne_eq_nil_iff, cutLast]
  split <;> simp_all

/-- What a text is cut into. -/
theorem cutLast_eq_some {before after : String} (h : cutLast s sep = some (before, after)) :
    s = before ++ String.singleton sep ++ after ∧ sep ∉ after.toList := by
  have hmem : sep ∈ s.toList := by
    by_contra hnot
    rw [cutLast_eq_none_iff.mpr hnot] at h
    cases h
  obtain ⟨right, left, hsplit, hright⟩ :=
    eq_append_cons_of_mem (mem_reverse.mpr hmem)
  have htext : s = String.ofList left.reverse ++ String.singleton sep ++
      String.ofList right.reverse := by
    apply String.toList_inj.mp
    rw [← reverse_reverse s.toList, hsplit]
    simp
  have hsep : sep ∉ (String.ofList right.reverse).toList := by
    rw [String.toList_ofList]
    exact fun hin => hright (mem_reverse.mp hin)
  rw [htext, cutLast_append_of_not_mem (String.toList_singleton sep) hsep, Option.some.injEq,
    Prod.mk.injEq] at h
  obtain ⟨rfl, rfl⟩ := h
  exact ⟨htext, hsep⟩

theorem contains_iff {sub : String} : contains s sub = true ↔ sub.toList <:+: s.toList := by
  rw [contains, any_eq_true, infix_iff_prefix_suffix]
  refine exists_congr fun rest => ?_
  rw [mem_tails, isPrefixOf_iff_prefix]
  exact and_comm

/-- A text of ASCII characters has one byte for each of them. -/
theorem len_of_ascii (h : ∀ c ∈ s.toList, c.val ≤ 127) : len s = s.toList.length := by
  have hchars : ∀ chars : List Char, (∀ c ∈ chars, c.val ≤ 127) →
      String.utf8Len chars = chars.length := by
    intro chars
    induction chars with
    | nil => exact fun _ => rfl
    | cons c rest ih =>
      intro hall
      have hsize : c.utf8Size = 1 := Char.utf8Size_eq_one_iff.mpr (hall c mem_cons_self)
      rw [String.utf8Len_cons, hsize, ih fun d hd => hall d (mem_cons_of_mem _ hd),
        length_cons]
  rw [← hchars s.toList h, len, ← String.utf8ByteSize_ofList, String.ofList_toList]

theorem trimSuffix_append (s p : String) : trimSuffix (s ++ p) p = s := by
  have hsuf : hasSuffix (s ++ p) p = true := by
    rw [hasSuffix, isSuffixOf_iff_suffix, String.toList_append]
    exact suffix_append _ _
  rw [trimSuffix, if_pos hsuf, String.toList_append, length_append, Nat.add_sub_cancel,
    take_left, String.ofList_toList]

/-- A path that starts with a directory has its name as the first part. -/
theorem head_split_of_hasPrefix (directory : String) (hplain : '/' ∉ directory.toList)
    (h : hasPrefix s (directory ++ "/") = true) : (split s '/').head? = some directory := by
  rw [hasPrefix, isPrefixOf_iff_prefix] at h
  obtain ⟨rest, hrest⟩ := h
  have htext : s.toList = directory.toList ++ '/' :: rest := by
    rw [← hrest]
    simp
  rw [split, htext, splitOn_append_cons_self_of_not_mem hplain]
  simp

/-! ## Clean paths -/

/-- A component that `path.Clean` keeps for good. -/
def PlainName (name : String) : Prop :=
  name ≠ "" ∧ name ≠ "." ∧ name ≠ ".." ∧ '/' ∉ name.toList

instance (name : String) : Decidable (PlainName name) := inferInstanceAs (Decidable (_ ∧ _))

/-- The scan of plain names keeps them all. -/
theorem foldl_cleanStep_plain (rooted : Bool) (names : List String)
    (h : ∀ name ∈ names, PlainName name) :
    ∀ out, names.foldl (cleanStep rooted) out = names.reverse ++ out := by
  induction names with
  | nil => simp
  | cons name rest ih =>
    intro out
    obtain ⟨hempty, hdot, hdots, -⟩ := h name (by simp)
    rw [foldl_cons, ih fun other hother => h other (by simp [hother])]
    simp [cleanStep, hempty, hdot, hdots]

theorem plainName_zeroPadded (n : Nat) (hwidth : 0 < width) :
    PlainName (zeroPadded 10 width n) := by
  have hdigits : ∀ c ∈ ['.', '/'], c ∉ (zeroPadded 10 width n).toList := by
    intro c hc
    refine not_mem_zeroPadded (by decide) (by decide) ?_
    exact forall_mem_of_all (p := fun c => ∀ d < 16, Nat.digitChar d ≠ c) (by decide) c hc
  refine ⟨fun h => ?_, fun h => ?_, fun h => ?_, hdigits '/' (by simp)⟩
  · have hlen := congrArg (fun s => s.toList.length) h
    simp only [zeroPadded, paddedDigits, String.toList_ofList, length_reverse, length_map,
      length_append, length_replicate, String.toList_empty, length_nil] at hlen
    omega
  · exact hdigits '.' (by simp) (by rw [h]; decide)
  · exact hdigits '.' (by simp) (by rw [h]; decide)

variable {names : List String}

/-- A path of plain names is clean. -/
theorem cleanComponents_join (hne : names ≠ []) (h : ∀ name ∈ names, PlainName name) :
    hasPrefix (join names "/") "/" = false ∧ cleanComponents (join names "/") = names := by
  have hsplit : split (join names "/") '/' = names :=
    split_join hne fun name hname => (h name hname).2.2.2
  have hroot : hasPrefix (join names "/") "/" = false := by
    rw [← Bool.not_eq_true]
    intro hroot
    have hhead := head_split_of_hasPrefix "" (by simp) hroot
    rw [hsplit] at hhead
    exact (h "" (mem_of_head? hhead)).1 rfl
  refine ⟨hroot, ?_⟩
  rw [cleanComponents, hsplit, foldl_cleanStep_plain _ names h, append_nil, reverse_reverse]

/-- A last component that stands for its directory disappears. -/
theorem clean_append_stay (hne : names ≠ [])
    (h : ∀ name ∈ names, PlainName name) (hlast : last = "" ∨ last = ".") :
    clean (join names "/" ++ "/" ++ last) = join names "/" := by
  have hone : split last '/' = [last] := by rcases hlast with rfl | rfl <;> rfl
  have hsplit : split (join names "/" ++ "/" ++ last) '/' = names ++ [last] := by
    rw [split_append, split_join hne fun name hname => (h name hname).2.2.2, hone]
  have hrooted : hasPrefix (join names "/" ++ "/" ++ last) "/" = false := by
    rw [← Bool.not_eq_true]
    intro hroot
    have hhead := head_split_of_hasPrefix "" (by simp) hroot
    rw [hsplit, List.head?_append_of_ne_nil _ hne] at hhead
    exact (h "" (mem_of_head? hhead)).1 rfl
  have hclean : cleanComponents (join names "/" ++ "/" ++ last) = names := by
    rw [cleanComponents, hsplit, foldl_append, foldl_cleanStep_plain _ names h]
    simp [cleanStep, hlast]
  simp [clean, hrooted, hclean]

/-- The directory of a path of plain names. -/
theorem dir_join {name : String} (h : ∀ other ∈ names ++ [name], PlainName other) :
    dir (join (names ++ [name]) "/") = if names = [] then "." else join names "/" := by
  have hslash : ∀ other ∈ names ++ [name], '/' ∉ other.toList :=
    fun other hother => (h other hother).2.2.2
  split
  · next hnil =>
    subst hnil
    have hone : join ([] ++ [name]) "/" = name := by simp [join]
    rw [hone, dir, cutLast_eq_none_iff.mpr (hslash name (by simp))]
    decide +kernel
  next hne =>
  have hnames : ∀ other ∈ names, PlainName other := fun other hother => h other (by simp [hother])
  rw [join_concat hne (fun other hother => hslash other (by simp [hother]))
    (hslash name (by simp)), dir, cutLast_append (hslash name (by simp))]
  have hclean := clean_append_stay hne hnames (.inl rfl)
  rwa [String.append_empty] at hclean

/-- A path that has climbed above its start stays there. -/
theorem getLast?_foldl_cleanStep (parts : List String) :
    ∀ out : List String, out.getLast? = some ".." →
      (parts.foldl (cleanStep false) out).getLast? = some ".." := by
  induction parts with
  | nil => exact fun _ h => h
  | cons part rest ih =>
    intro out h
    refine ih _ ?_
    unfold cleanStep
    split
    · exact h
    split
    · cases out with
      | nil => cases h
      | cons last below =>
        dsimp only
        split
        · exact h
        next hlast =>
        cases below with
        | nil => exact absurd (Option.some.inj h) hlast
        | cons next below => rwa [List.getLast?_cons_cons] at h
    · cases out with
      | nil => cases h
      | cons last below =>
        exact h

/-- What the scan has kept at any time: names, and below them only `..`. -/
structure Scanned (out : List String) : Prop where
  name : ∀ part ∈ out, part ≠ "" ∧ part ≠ "." ∧ '/' ∉ part.toList
  below : ∀ above rest, out = above ++ ".." :: rest → ∀ part ∈ rest, part = ".."

theorem Scanned.step (h : Scanned out)
    (hpart : '/' ∉ part.toList) : Scanned (cleanStep rooted out part) := by
  unfold cleanStep
  split
  · exact h
  next hname =>
  rw [not_or] at hname
  split
  · split
    · split
      · exact h
      refine ⟨by decide, fun above rest heq => ?_⟩
      have hlen := congrArg List.length heq
      simp only [length_cons, length_nil, length_append] at hlen
      intro other hother
      rw [eq_nil_of_length_eq_zero (l := rest) (by omega)] at hother
      simp at hother
    next last rest =>
    split
    · next hlast =>
      subst hlast
      refine ⟨fun other hother => ?_, fun above below heq other hother => ?_⟩
      · rcases mem_cons.mp hother with rfl | hother
        · decide
        · exact h.name other hother
      -- Everything below the first `..` of the list is `..` already.
      have hrest : ∀ q ∈ ".." :: rest, q = ".." := by
        intro q hq
        rcases mem_cons.mp hq with rfl | hq
        · rfl
        · exact h.below [] rest rfl q hq
      cases above with
      | nil =>
        obtain ⟨-, rfl⟩ := List.cons.inj heq
        exact hrest other hother
      | cons first above =>
        obtain ⟨-, heq⟩ := List.cons.inj heq
        refine hrest other ?_
        rw [heq]
        simp [hother]
    · refine ⟨fun other hother => h.name other (by simp [hother]), fun above below heq => ?_⟩
      exact h.below (last :: above) below (by rw [heq, cons_append])
  · next hdots =>
    refine ⟨fun other hother => ?_, fun above rest heq => ?_⟩
    · rcases mem_cons.mp hother with rfl | hother
      · exact ⟨hname.1, hname.2, hpart⟩
      · exact h.name other hother
    · cases above with
      | nil => exact absurd (List.cons.inj heq).1 hdots
      | cons first above => exact h.below above rest (List.cons.inj heq).2

theorem scanned_foldl (parts : List String) (hparts : ∀ part ∈ parts, '/' ∉ part.toList) :
    ∀ {out : List String}, Scanned out → Scanned (parts.foldl (cleanStep rooted) out) := by
  induction parts with
  | nil =>
    intro out h
    exact h
  | cons part rest ih =>
    intro out h
    exact ih (fun other hother => hparts other (by simp [hother])) (h.step (hparts part (by simp)))

/-- The components of a clean path have no separator in them. -/
theorem not_mem_of_mem_cleanComponents (h : part ∈ cleanComponents p) : '/' ∉ part.toList := by
  have hscan : Scanned ((split p '/').foldl (cleanStep (hasPrefix p "/")) []) :=
    scanned_foldl _ (fun part hpart => not_mem_of_mem_split hpart) ⟨by simp, by simp⟩
  exact (hscan.name part (mem_reverse.mp h)).2.2

/-- A clean path that does not start with `..` has plain names only. -/
theorem plainName_of_mem_cleanComponents
    (hstart : (cleanComponents p).head? ≠ some "..") (hpart : part ∈ cleanComponents p) :
    PlainName part := by
  have hscan : Scanned ((split p '/').foldl (cleanStep (hasPrefix p "/")) []) :=
    scanned_foldl _ (fun part hpart => not_mem_of_mem_split hpart) ⟨by simp, by simp⟩
  unfold cleanComponents at hstart hpart
  rw [mem_reverse] at hpart
  obtain ⟨hempty, hdot, hslash⟩ := hscan.name part hpart
  refine ⟨hempty, hdot, ?_, hslash⟩
  rintro rfl
  -- A `..` has only `..` below it, down to the first component.
  obtain ⟨above, rest, heq⟩ := append_of_mem hpart
  have hall := hscan.below above rest heq
  rw [heq, List.head?_reverse] at hstart
  refine hstart ?_
  cases hlast : rest.getLast? with
  | none =>
    rw [List.getLast?_eq_none_iff.mp hlast]
    simp
  | some last =>
    rw [List.getLast?_append, List.getLast?_cons, hlast]
    simp [hall last (mem_of_getLast? hlast)]

end Atum.Go
