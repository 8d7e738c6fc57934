import Mathlib.Data.List.Nodup
import Atum.Go.Strings
import Atum.Library.Framing

/-!
# Listing a Keycloak collection

Keycloak hands out a collection in pages.  `paginatedList` asks for one page after
the other, until a page is short, and refuses replies that cannot belong to one
collection: too long pages, a full page that came before, and identities that are
empty or that came before.

A full page is recognised by its signature, the identities with a NUL behind each.
Two pages of different identities can have the same signature if an identity contains a
NUL.  And the client reads no body of more than two mebibytes.  The listing of a server is
complete exactly if its full pages have different signatures and its bodies fit
(`paginatedList_complete_iff`).
-/

namespace Atum.Provider

open Atum.Go List Nat

def keycloakPageSize : Nat := 100

/-- The largest `int`. -/
def maxInt : Nat := 2 ^ 63 - 1

section Pagination

variable {T : Type} (identity : T → String)

/-- `validateKeycloakIdentities`: the identities that have been seen afterwards. -/
def validateKeycloakIdentities (collectionPath : String) : List T → Nat → List String →
    Except String (List String)
  | [], _, seen => .ok seen
  | item :: rest, index, seen =>
    if identity item = "" then
      .error ("Keycloak " ++ collectionPath ++ " collection returned an empty identity at index " ++
        toString index)
    else if identity item ∈ seen then
      .error ("Keycloak " ++ collectionPath ++ " collection returned duplicate identity " ++
        quote (identity item))
    else validateKeycloakIdentities collectionPath rest (index + 1) (identity item :: seen)

def keycloakPageSignature (items : List T) : String :=
  String.join (items.map fun item => identity item ++ "\x00")

/-- The variables of the loop of `paginatedList`. -/
structure Listing (T : Type) where
  offset : Nat := 0
  items : List T := []
  seenIDs : List String := []
  seenPages : List String := []

/-- What a page leads to: the result, or another round. -/
inductive Next (T : Type) where
  | done (result : Except String (List T))
  | more (listing : Listing T)

/-- The body of the loop after a reply. -/
def acceptPage (collectionPath : String) (listing : Listing T) (page : List T) : Next T :=
  if page.length = 0 then .done (.ok listing.items)
  else if keycloakPageSize < page.length then
    .done (.error ("Keycloak " ++ collectionPath ++ " collection returned " ++
      toString page.length ++ " records for maximum page size " ++ toString keycloakPageSize))
  else if page.length = keycloakPageSize ∧
    keycloakPageSignature identity page ∈ listing.seenPages then
    .done (.error ("Keycloak " ++ collectionPath ++ " collection repeated full page at offset " ++
      toString listing.offset))
  else
    match validateKeycloakIdentities identity collectionPath page 0 listing.seenIDs with
    | .error err => .done (.error err)
    | .ok seenIDs =>
      if page.length < keycloakPageSize then .done (.ok (listing.items ++ page))
      else if maxInt - listing.offset < page.length then
        .done (.error ("Keycloak " ++ collectionPath ++ " collection offset overflow at " ++
          toString listing.offset))
      else if listing.offset + page.length ≤ listing.offset then
        .done (.error ("Keycloak " ++ collectionPath ++ " collection made no progress at offset " ++
          toString listing.offset))
      else
        .more {
          offset := listing.offset + page.length
          items := listing.items ++ page
          seenIDs := seenIDs
          seenPages := keycloakPageSignature identity page :: listing.seenPages }

/-- A page that leads to another round. -/
structure Continues (listing : Listing T) (page : List T) (next : Listing T) : Prop where
  full : page.length = keycloakPageSize
  fresh : keycloakPageSignature identity page ∉ listing.seenPages
  inRange : listing.offset + keycloakPageSize ≤ maxInt
  offset : next.offset = listing.offset + keycloakPageSize
  items : next.items = listing.items ++ page
  seenPages : next.seenPages = keycloakPageSignature identity page :: listing.seenPages

variable {collectionPath : String} {listing : Listing T} {page : List T}

theorem acceptPage_more {next : Listing T}
    (h : acceptPage identity collectionPath listing page = .more next) :
    Continues identity listing page next ∧
      validateKeycloakIdentities identity collectionPath page 0 listing.seenIDs =
        .ok next.seenIDs := by
  unfold acceptPage at h
  split at h
  · cases h
  split at h
  · cases h
  split at h
  · cases h
  next hrepeated =>
  split at h
  · cases h
  next seenIDs hids =>
  split at h
  · cases h
  have hfull : page.length = keycloakPageSize := by omega
  split at h
  · cases h
  split at h
  · cases h
  · obtain rfl := Next.more.inj h
    exact ⟨⟨hfull, fun hmem => hrepeated ⟨hfull, hmem⟩, by omega,
      congrArg (listing.offset + ·) hfull, rfl, rfl⟩, hids⟩

/-- What a call of `paginatedList` comes to: its result, the number of its requests, and
the pages that it received. -/
structure Enumerated (T : Type) where
  result : Except String (List T)
  requests : Nat
  pages : List (List T)

/-- The loop of `paginatedList`.  `reply` answers the requests by their number and their
offset, and `ctxErr` is the error of the context before each of them. -/
def enumerate (collectionPath : String) (reply : Nat → Nat → Except String (List T))
    (ctxErr : Nat → Option String) (count : Nat) (listing : Listing T) : Enumerated T :=
  match ctxErr count with
  | some err =>
    { result := .error ("enumerate Keycloak " ++ collectionPath ++ " collection: " ++ err)
      requests := 0
      pages := [] }
  | none =>
    match reply count listing.offset with
    | .error err => { result := .error err, requests := 1, pages := [] }
    | .ok page =>
      match hacc : acceptPage identity collectionPath listing page with
      | .done result => { result := result, requests := 1, pages := [page] }
      | .more next =>
        let rest := enumerate collectionPath reply ctxErr (count + 1) next
        { result := rest.result, requests := rest.requests + 1, pages := page :: rest.pages }
termination_by maxInt - listing.offset
decreasing_by
  obtain ⟨hnext, -⟩ := acceptPage_more identity hacc
  have hoffset := hnext.offset
  have hrange := hnext.inRange
  have hpositive : 0 < keycloakPageSize := by decide
  omega

section Rounds

variable {collectionPath : String} {reply : Nat → Nat → Except String (List T)}
  {ctxErr : Nat → Option String} {count : Nat} {listing : Listing T} {page : List T}
  (hctx : ctxErr count = none) (hreply : reply count listing.offset = .ok page)

include hctx hreply

theorem enumerate_of_done {result : Except String (List T)}
    (hacc : acceptPage identity collectionPath listing page = .done result) :
    enumerate identity collectionPath reply ctxErr count listing =
      { result := result, requests := 1, pages := [page] } := by
  rw [enumerate, hctx]
  simp only [hreply]
  split
  · next found hfound => rw [Next.done.inj (hacc.symm.trans hfound)]
  · next next hnext => cases hacc.symm.trans hnext

theorem enumerate_of_more {next : Listing T}
    (hacc : acceptPage identity collectionPath listing page = .more next) :
    enumerate identity collectionPath reply ctxErr count listing =
      let rest := enumerate identity collectionPath reply ctxErr (count + 1) next
      { result := rest.result, requests := rest.requests + 1, pages := page :: rest.pages } := by
  rw [enumerate, hctx]
  simp only [hreply]
  split
  · next found hfound => cases hacc.symm.trans hfound
  · next next' hnext =>
    obtain rfl := Next.more.inj (hacc.symm.trans hnext)
    rfl

end Rounds

def maxResponseBytes : Nat := 2 * 2 ^ 20

/-- What the server answers to a request for a page: its status, the bytes of its body, if
they can be read, and what the body decodes to. -/
structure Response (T : Type) where
  status : Nat
  size : Except String Nat
  decoded : Except String (List T)

/-- `Client.JSON` without an input.  `operation` names the request in errors. -/
def clientJSON (operation : String) : Except String (Response T) → Except String (List T)
  | .error err => .error (operation ++ ": " ++ err)
  | .ok response =>
    match response.size with
    | .error err => .error ("read " ++ operation ++ " response: " ++ err)
    | .ok size =>
      if maxResponseBytes < size then
        .error (operation ++ " response exceeds " ++ toString maxResponseBytes ++ " bytes")
      else if response.status < 200 ∨ 300 ≤ response.status then
        .error (operation ++ " returned HTTP " ++ toString response.status)
      -- An empty body leaves the page as it is.
      else if size = 0 then .ok []
      else response.decoded.mapError fun err => "decode " ++ operation ++ " response: " ++ err

/-- `paginatedList`.  `operation` names the request for the page at an offset. -/
def paginatedList (collectionPath : String) (operation : Nat → String)
    (respond : Nat → Nat → Except String (Response T)) (ctxErr : Nat → Option String) :
    Enumerated T :=
  enumerate identity collectionPath
    (fun count offset => clientJSON (operation offset) (respond count offset)) ctxErr 0 {}

/-- A server that holds a list of objects.  The body of a page is not empty, since a list
has its brackets. -/
structure Server (T : Type) where
  objects : List T
  bodySize : List T → Nat
  positive : ∀ page, 0 < bodySize page

/-- The answer of a server: the slice at the offset. -/
def Server.respond (server : Server T) (_count offset : Nat) : Except String (Response T) :=
  let page := (server.objects.drop offset).take keycloakPageSize
  .ok { status := 200, size := .ok (server.bodySize page), decoded := .ok page }

/-! ## Any replies -/

variable {items : List T} {index : Nat}

/-- The identities are distinct and not empty, and differ from those seen before. -/
theorem validateKeycloakIdentities_ok_iff {seen seen' : List String} :
    validateKeycloakIdentities identity collectionPath items index seen = .ok seen' ↔
      (∀ item ∈ items, identity item ≠ "" ∧ identity item ∉ seen) ∧
        (items.map identity).Nodup ∧ seen' = (items.map identity).reverse ++ seen := by
  induction items generalizing index seen with
  | nil =>
    constructor
    · intro h
      cases h
      simp
    · rintro ⟨-, -, rfl⟩
      rfl
  | cons item rest ih =>
    rw [validateKeycloakIdentities]
    by_cases hempty : identity item = ""
    · simp [hempty]
    rw [if_neg hempty]
    by_cases hseen : identity item ∈ seen
    · simp [hseen]
    rw [if_neg hseen, ih]
    simp only [mem_cons, not_or, forall_eq_or_imp, map_cons, nodup_cons,
      reverse_cons, append_assoc, singleton_append, mem_map, not_exists,
      not_and]
    constructor
    · rintro ⟨hrest, hnodup, hseen'⟩
      exact ⟨⟨⟨hempty, hseen⟩,
          fun other hother => ⟨(hrest other hother).1, (hrest other hother).2.2⟩⟩,
        ⟨fun other hother => (hrest other hother).2.1, hnodup⟩, hseen'⟩
    · rintro ⟨⟨-, hrest⟩, ⟨hne, hnodup⟩, hseen'⟩
      exact ⟨fun other hother => ⟨(hrest other hother).1, hne other hother, (hrest other hother).2⟩,
        hnodup, hseen'⟩

/-- The items of the loop: their identities are distinct, not empty and seen. -/
structure Collected (listing : Listing T) : Prop where
  nonempty : ∀ item ∈ listing.items, identity item ≠ ""
  nodup : (listing.items.map identity).Nodup
  seen : ∀ item ∈ listing.items, identity item ∈ listing.seenIDs

/-- Items of a list of identities that was validated. -/
theorem Collected.append (h : Collected identity listing) {seenIDs : List String}
    (hvalid : validateKeycloakIdentities identity collectionPath page 0 listing.seenIDs =
      .ok seenIDs) :
    (∀ item ∈ listing.items ++ page, identity item ≠ "" ∧ identity item ∈ seenIDs) ∧
      ((listing.items ++ page).map identity).Nodup := by
  obtain ⟨hfresh, hnodup, rfl⟩ := (validateKeycloakIdentities_ok_iff identity).mp hvalid
  constructor
  · intro item hitem
    rcases mem_append.mp hitem with hold | hnew
    · exact ⟨h.nonempty item hold, mem_append_right _ (h.seen item hold)⟩
    · refine ⟨(hfresh item hnew).1, mem_append_left _ ?_⟩
      exact mem_reverse.mpr (mem_map_of_mem hnew)
  rw [map_append, nodup_append]
  refine ⟨h.nodup, hnodup, ?_⟩
  intro name hname other hother heq
  obtain ⟨old, hold, rfl⟩ := mem_map.mp hname
  obtain ⟨new, hnew, rfl⟩ := mem_map.mp hother
  exact (hfresh new hnew).2 (heq ▸ h.seen old hold)

/-- A page that ends the listing. -/
theorem acceptPage_done (h : Collected identity listing)
    (hacc : acceptPage identity collectionPath listing page = .done (.ok items)) :
    items = listing.items ++ page ∧ (items.map identity).Nodup ∧
      ∀ item ∈ items, identity item ≠ "" := by
  unfold acceptPage at hacc
  split at hacc
  · next hempty =>
    obtain rfl := Except.ok.inj (Next.done.inj hacc)
    rw [length_eq_zero_iff.mp hempty, append_nil]
    exact ⟨rfl, h.nodup, h.nonempty⟩
  split at hacc
  · cases hacc
  split at hacc
  · cases hacc
  split at hacc
  · cases hacc
  next seenIDs hids =>
  split at hacc
  · obtain rfl := Except.ok.inj (Next.done.inj hacc)
    obtain ⟨hitems, hnodup⟩ := h.append identity hids
    exact ⟨rfl, hnodup, fun item hitem => (hitems item hitem).1⟩
  · split at hacc
    · cases hacc
    · split at hacc <;> cases hacc

/-- Whatever the replies are, a result is the received pages with distinct identities. -/
theorem enumerate_sound {reply : Nat → Nat → Except String (List T)}
    {ctxErr : Nat → Option String} (count : Nat) (listing : Listing T)
    (h : Collected identity listing)
    (hres : (enumerate identity collectionPath reply ctxErr count listing).result = .ok items) :
    items = listing.items ++
        (enumerate identity collectionPath reply ctxErr count listing).pages.flatten ∧
      (items.map identity).Nodup ∧ ∀ item ∈ items, identity item ≠ "" := by
  fun_induction enumerate identity collectionPath reply ctxErr count listing with
  | case1 => cases hres
  | case2 => cases hres
  | case3 count listing hctx page hreply result hacc =>
    obtain rfl : result = .ok items := hres
    rw [flatten_singleton]
    exact acceptPage_done identity h hacc
  | case4 count listing hctx page hreply next hacc rest ih =>
    obtain ⟨hnext, hids⟩ := acceptPage_more identity hacc
    obtain ⟨hitems, hnodup⟩ := h.append identity hids
    rw [← hnext.items] at hitems hnodup
    have hcoll : Collected identity next :=
      ⟨fun item hitem => (hitems item hitem).1, hnodup, fun item hitem => (hitems item hitem).2⟩
    obtain ⟨heq, hrest⟩ := ih hcoll hres
    refine ⟨?_, hrest⟩
    rw [heq, hnext.items, flatten_cons, append_assoc]

/-! ## A server with a list of objects -/

/-- The page at an index. -/
def pageAt (objects : List T) (index : Nat) : List T :=
  (objects.drop (keycloakPageSize * index)).take keycloakPageSize

/-- The signatures of the pages before an index. -/
def signaturesBefore (objects : List T) (index : Nat) : List String :=
  (List.range index).map fun earlier => keycloakPageSignature identity (pageAt objects earlier)

/-- The loop after as many full pages. -/
def listingAt (objects : List T) (index : Nat) : Listing T where
  offset := keycloakPageSize * index
  items := objects.take (keycloakPageSize * index)
  seenIDs := ((objects.take (keycloakPageSize * index)).map identity).reverse
  seenPages := (signaturesBefore identity objects index).reverse

theorem listingAt_zero (objects : List T) : listingAt identity objects 0 = {} := rfl

/-- The body of the page at an index is not too large. -/
def Server.Fits (server : Server T) (index : Nat) : Prop :=
  server.bodySize (pageAt server.objects index) ≤ maxResponseBytes

/-- A page that fits is received. -/
theorem clientJSON_respond {server : Server T} {index : Nat} (operation : String) (count : Nat)
    (hfits : server.Fits index) :
    clientJSON operation (server.respond count (listingAt identity server.objects index).offset) =
      .ok (pageAt server.objects index) := by
  have hpositive := server.positive (pageAt server.objects index)
  change (if maxResponseBytes < server.bodySize (pageAt server.objects index) then _
    else if 200 < 200 ∨ 300 ≤ 200 then _
    else if server.bodySize (pageAt server.objects index) = 0 then _ else _) = _
  rw [if_neg (not_lt_of_ge hfits), if_neg (by omega), if_neg (by omega)]
  rfl

theorem clientJSON_respond_error {server : Server T} {index : Nat}
    (operation : String) (count : Nat)
    (hlarge : ¬server.Fits index) : ∃ err, clientJSON operation
      (server.respond count (listingAt identity server.objects index).offset) = .error err :=
  ⟨_, if_pos (lt_of_not_ge hlarge)⟩

/-- The page at an index can be recognised, and the offset after it is an `int`. -/
def Recognised (objects : List T) (index : Nat) : Prop :=
  keycloakPageSignature identity (pageAt objects index) ∉ signaturesBefore identity objects index ∧
    keycloakPageSize * (index + 1) ≤ maxInt

theorem take_append_pageAt (objects : List T) (index : Nat) :
    objects.take (keycloakPageSize * index) ++ pageAt objects index =
      objects.take (keycloakPageSize * (index + 1)) := by
  rw [pageAt, mul_succ, take_add]

theorem toList_signature_cons (item : T) (rest : List T) :
    (keycloakPageSignature identity (item :: rest)).toList =
      (identity item).toList ++ '\x00' :: (keycloakPageSignature identity rest).toList := by
  simp [keycloakPageSignature, String.toList_join]

/-- The signature tells pages apart whose identities have no NUL. -/
theorem signature_inj {page' : List T} (hplain : ∀ item ∈ page, '\x00' ∉ (identity item).toList)
    (hplain' : ∀ item ∈ page', '\x00' ∉ (identity item).toList)
    (h : keycloakPageSignature identity page = keycloakPageSignature identity page') :
    page.map identity = page'.map identity := by
  have hflat : ∀ items : List T, (keycloakPageSignature identity items).toList =
      (items.map identity).flatMap fun text => text.toList ++ ['\x00'] := by
    intro items
    induction items with
    | nil => rfl
    | cons item rest ih =>
      rw [toList_signature_cons, ih, map_cons, flatMap_cons, append_assoc]
      rfl
  have hinj : Function.Injective String.toList := fun _ _ => String.toList_injective
  have hdelimited := (Framing.selfDelimiting_terminated '\x00').comap hinj
  refine hdelimited.flatMap_injective (fun text => by simp) ?_ ?_ ?_
  · simpa using hplain
  · simpa using hplain'
  · rw [← hflat, ← hflat, h]

/-- Identities without NUL: every page of a collection that can be counted is
recognised. -/
theorem recognised_of_plain {objects : List T} (hnodup : (objects.map identity).Nodup)
    (hplain : ∀ item ∈ objects, '\x00' ∉ (identity item).toList) (hlen : objects.length ≤ maxInt)
    (hidx : index < objects.length / keycloakPageSize) : Recognised identity objects index := by
  have hbound : keycloakPageSize * (index + 1) ≤ objects.length :=
    le_trans (mul_le_mul_left _ hidx) (mul_div_le ..)
  refine ⟨fun hmem => ?_, le_trans hbound hlen⟩
  obtain ⟨earlier, hearlier, heq⟩ := mem_map.mp hmem
  have hlt : earlier < index := mem_range.mp hearlier
  have hpage : ∀ index, ∀ item ∈ pageAt objects index, '\x00' ∉ (identity item).toList :=
    fun index item hitem => hplain item (mem_of_mem_drop (mem_of_mem_take hitem))
  have hids := signature_inj identity (hpage earlier) (hpage index) heq
  -- The first objects of the two pages would have the same identity.
  have hpositive : 0 < keycloakPageSize := by decide
  have hhead : ∀ index, keycloakPageSize * index < objects.length →
      ((pageAt objects index).map identity)[0]? =
        (objects.map identity)[keycloakPageSize * index]? := by
    intro index hlt
    rw [pageAt, map_take, map_drop, List.getElem?_take_of_lt hpositive,
      List.getElem?_drop, add_zero]
  have hmono : keycloakPageSize * earlier < keycloakPageSize * index :=
    mul_lt_mul_of_pos_left hlt hpositive
  rw [mul_succ] at hbound
  have hsame := (hhead earlier (by omega)).symm.trans ((congrArg (·[0]?) hids).trans
    (hhead index (by omega)))
  have hinj := (List.getElem?_inj (by rw [length_map]; omega) hnodup).mp hsame
  omega

variable {objects : List T} (hnodup : (objects.map identity).Nodup)
  (hnonempty : ∀ item ∈ objects, identity item ≠ "")

include hnodup hnonempty

theorem validate_pageAt (collectionPath : String) (index : Nat) :
    validateKeycloakIdentities identity collectionPath (pageAt objects index) 0
        (listingAt identity objects index).seenIDs =
      .ok (((objects.take (keycloakPageSize * (index + 1))).map identity).reverse) := by
  have hfirst : ((objects.take (keycloakPageSize * (index + 1))).map identity).Nodup :=
    hnodup.sublist ((take_sublist ..).map identity)
  rw [← take_append_pageAt, map_append, nodup_append] at hfirst
  obtain ⟨-, hpage, hdisjoint⟩ := hfirst
  refine (validateKeycloakIdentities_ok_iff identity).mpr ⟨fun item hitem => ⟨?_, ?_⟩, hpage, ?_⟩
  · exact hnonempty item (mem_of_mem_drop (mem_of_mem_take hitem))
  · intro hmem
    exact hdisjoint _ (mem_reverse.mp hmem) _ (mem_map_of_mem hitem) rfl
  · rw [← take_append_pageAt, map_append, reverse_append]
    rfl

/-- A full page. -/
theorem acceptPage_full (collectionPath : String)
    (hfull : index < objects.length / keycloakPageSize) : (Recognised identity objects index ∧
        acceptPage identity collectionPath (listingAt identity objects index)
            (pageAt objects index) = .more (listingAt identity objects (index + 1))) ∨
      (¬ Recognised identity objects index ∧
        ∃ err, acceptPage identity collectionPath (listingAt identity objects index)
          (pageAt objects index) = .done (.error err)) := by
  have hlen : (pageAt objects index).length = keycloakPageSize := by
    rw [pageAt, length_take, length_drop]
    have hbound : keycloakPageSize * (index + 1) ≤ objects.length :=
      le_trans (mul_le_mul_left _ hfull) (mul_div_le ..)
    rw [mul_succ] at hbound
    omega
  have hpositive : 0 < keycloakPageSize := by decide
  unfold acceptPage
  rw [hlen, validate_pageAt identity hnodup hnonempty, if_neg (by omega), if_neg (by omega)]
  by_cases hrepeated : keycloakPageSignature identity (pageAt objects index) ∈
      signaturesBefore identity objects index
  · refine .inr ⟨fun h => h.1 hrepeated, _, if_pos ⟨rfl, mem_reverse.mpr hrepeated⟩⟩
  rw [if_neg fun h => hrepeated (mem_reverse.mp h.2)]
  simp only [lt_irrefl, if_false]
  have hoffset : (listingAt identity objects index).offset = keycloakPageSize * index := rfl
  by_cases hrange : keycloakPageSize * (index + 1) ≤ maxInt
  · rw [mul_succ] at hrange
    refine .inl ⟨⟨hrepeated, hrange⟩, ?_⟩
    rw [if_neg (by omega), if_neg (by omega)]
    simp only [listingAt, signaturesBefore, take_append_pageAt, range_succ, map_append,
      reverse_append, map_cons, map_nil, reverse_singleton,
      singleton_append, mul_succ]
  · refine .inr ⟨fun h => hrange h.2, _, if_pos ?_⟩
    rw [mul_succ] at hrange
    omega

/-- The last page. -/
theorem acceptPage_last (collectionPath : String) : acceptPage identity collectionPath
        (listingAt identity objects (objects.length / keycloakPageSize))
        (pageAt objects (objects.length / keycloakPageSize)) = .done (.ok objects) := by
  have hpositive : 0 < keycloakPageSize := by decide
  have hlast := div_add_mod objects.length keycloakPageSize
  have hmod := mod_lt objects.length hpositive
  have hlen : (pageAt objects (objects.length / keycloakPageSize)).length =
      objects.length % keycloakPageSize := by
    rw [pageAt, length_take, length_drop]
    omega
  have hitems : (listingAt identity objects (objects.length / keycloakPageSize)).items ++
      pageAt objects (objects.length / keycloakPageSize) = objects := by
    show objects.take _ ++ _ = _
    rw [take_append_pageAt]
    refine take_of_length_le ?_
    rw [mul_succ]
    omega
  unfold acceptPage
  rw [validate_pageAt identity hnodup hnonempty]
  by_cases hempty : (pageAt objects (objects.length / keycloakPageSize)).length = 0
  · rw [if_pos hempty]
    rw [length_eq_zero_iff.mp hempty, append_nil] at hitems
    rw [hitems]
  · rw [if_neg hempty, if_neg (by omega), if_neg (by omega)]
    simp only
    rw [if_pos (by omega), hitems]

omit hnodup hnonempty in
theorem enumerate_of_error {reply : Nat → Nat → Except String (List T)} {count : Nat}
    {listing : Listing T} {err : String} (h : reply count listing.offset = .error err) :
    (enumerate identity collectionPath reply (fun _ => none) count listing).result =
      .error err := by
  rw [enumerate]
  simp only [h]

end Pagination

section Server

variable {T : Type} {identity : T → String} {server : Server T}
  (hnodup : (server.objects.map identity).Nodup)
  (hnonempty : ∀ item ∈ server.objects, identity item ≠ "")

/-- The page at an index is received and, if it is full, recognised. -/
def Listed (identity : T → String) (server : Server T) (index : Nat) : Prop :=
  server.Fits index ∧
    (index < server.objects.length / keycloakPageSize → Recognised identity server.objects index)

include hnodup hnonempty

/-- From any page on, the listing is complete if the pages are listed, and fails
otherwise. -/
theorem enumerate_server_cases (collectionPath : String) (operation : Nat → String) {left : Nat} :
    ∀ {index count : Nat}, index + left = server.objects.length / keycloakPageSize →
      let run := enumerate identity collectionPath
        (fun count offset => clientJSON (operation offset) (server.respond count offset))
        (fun _ => none) count (listingAt identity server.objects index)
      ((∀ later, index ≤ later → later ≤ server.objects.length / keycloakPageSize →
          Listed identity server later) ∧
        run.result = .ok server.objects ∧ run.requests = left + 1) ∨
      (∃ later, index ≤ later ∧ later ≤ server.objects.length / keycloakPageSize ∧
          ¬Listed identity server later) ∧ ∃ err, run.result = .error err := by
  induction left with
  | zero =>
    intro index count hidx
    obtain rfl : index = server.objects.length / keycloakPageSize := by omega
    by_cases hfits : server.Fits (server.objects.length / keycloakPageSize)
    · rw [enumerate_of_done identity rfl (clientJSON_respond identity _ count hfits)
        (acceptPage_last identity hnodup hnonempty collectionPath)]
      refine .inl ⟨fun later hle hlast => ?_, rfl, rfl⟩
      obtain rfl := le_antisymm hlast hle
      exact ⟨hfits, fun hlt => absurd hlt (lt_irrefl _)⟩
    · obtain ⟨err, herr⟩ := clientJSON_respond_error identity (operation _) count hfits
      exact .inr ⟨⟨_, le_rfl, le_rfl, fun h => hfits h.1⟩, err, enumerate_of_error identity herr⟩
  | succ left ih =>
    intro index count hidx
    have hlt : index < server.objects.length / keycloakPageSize := by omega
    by_cases hfits : server.Fits index
    · rcases acceptPage_full identity hnodup hnonempty collectionPath hlt with
        ⟨hrecognised, hacc⟩ | ⟨hrepeated, err, hacc⟩
      · rw [enumerate_of_more identity rfl (clientJSON_respond identity _ count hfits) hacc]
        rcases @ih (index + 1) (count + 1) (by omega) with
          ⟨hlater, hres, hrequests⟩ | ⟨⟨later, hle, hlast, hnot⟩, herr⟩
        · refine .inl ⟨fun later hle hlast => ?_, hres, congrArg (· + 1) hrequests⟩
          rcases eq_or_lt_of_le hle with rfl | hgt
          · exact ⟨hfits, fun _ => hrecognised⟩
          · exact hlater later hgt hlast
        · exact .inr ⟨⟨later, by omega, hlast, hnot⟩, herr⟩
      · rw [enumerate_of_done identity rfl (clientJSON_respond identity _ count hfits) hacc]
        exact .inr ⟨⟨index, le_rfl, hlt.le, fun h => hrepeated (h.2 hlt)⟩, err, rfl⟩
    · obtain ⟨err, herr⟩ := clientJSON_respond_error identity (operation _) count hfits
      exact .inr ⟨⟨index, le_rfl, hlt.le, fun h => hfits h.1⟩,
        err, enumerate_of_error identity herr⟩

/-- The whole listing of a server is complete, or some page was not listed and the listing
failed. -/
theorem paginatedList_server_cases (collectionPath : String) (operation : Nat → String) :
    let run := paginatedList identity collectionPath operation server.respond fun _ => none
    ((∀ index ≤ server.objects.length / keycloakPageSize, Listed identity server index) ∧
      run.result = .ok server.objects ∧
      run.requests = server.objects.length / keycloakPageSize + 1) ∨
    (∃ index ≤ server.objects.length / keycloakPageSize, ¬Listed identity server index) ∧
      ∃ err, run.result = .error err := by
  have hcases := @enumerate_server_cases _ _ _ hnodup hnonempty collectionPath operation _ 0 0
    (zero_add (server.objects.length / keycloakPageSize))
  simp only [zero_le, true_implies, true_and, listingAt_zero] at hcases
  exact hcases

end Server

/-- The listing of a server with distinct identities is complete, after one request for
each full page and one more, exactly if its bodies fit and its full pages are recognised.
The result of any replies is made of the received pages, with distinct identities. -/
theorem paginatedList_complete_iff {T : Type} (identity : T → String) (collectionPath : String)
    (operation : Nat → String) (respond : Nat → Nat → Except String (Response T))
    (ctxErr : Nat → Option String) (server : Server T)
    (hnodup : (server.objects.map identity).Nodup)
    (hnonempty : ∀ item ∈ server.objects, identity item ≠ "") :
    (∀ items, (paginatedList identity collectionPath operation respond ctxErr).result = .ok items →
      items = (paginatedList identity collectionPath operation respond ctxErr).pages.flatten ∧
        (items.map identity).Nodup ∧ ∀ item ∈ items, identity item ≠ "") ∧
    ((paginatedList identity collectionPath operation server.respond fun _ => none).result =
          .ok server.objects ∧
        (paginatedList identity collectionPath operation server.respond fun _ => none).requests =
          server.objects.length / keycloakPageSize + 1 ↔
      ∀ index ≤ server.objects.length / keycloakPageSize, Listed identity server index) := by
  constructor
  · intro items hitems
    obtain ⟨heq, hrest⟩ := enumerate_sound identity 0 {} ⟨by simp, by simp, by simp⟩ hitems
    exact ⟨heq.trans (nil_append _), hrest⟩
  rcases paginatedList_server_cases hnodup hnonempty collectionPath operation with
    ⟨hall, hlisted⟩ | ⟨⟨index, hle, hnot⟩, err, herror⟩
  · exact iff_of_true hlisted hall
  · exact iff_of_false (fun h => by cases herror.symm.trans h.1) fun h => hnot (h index hle)

/-- An identity of one letter, as often. -/
def repeated (letter : Char) (count : Nat) : String :=
  String.ofList (List.replicate count letter)

theorem repeated_injective (letter : Char) : Function.Injective (repeated letter) := by
  intro left right h
  simpa [repeated] using congrArg (fun s : String => s.toList.length) h

/-- A server of objects that are told apart by their lengths. -/
def lengthServer (objects : List Nat) : Server Nat where
  objects := objects
  bodySize page := page.sum + 2
  positive _ := succ_pos _

theorem nodup_range_letters (count : Nat) :
    ((List.range' 1 count).map (repeated 'a')).Nodup :=
  List.Nodup.map (repeated_injective 'a') List.nodup_range'

theorem letters_ne_empty (count : Nat) : ∀ item ∈ List.range' 1 count, repeated 'a' item ≠ "" := by
  intro item hitem hempty
  obtain rfl := repeated_injective 'a' (show repeated 'a' item = repeated 'a' 0 from hempty)
  simp at hitem

theorem letters_plain (item : Nat) : '\x00' ∉ (repeated 'a' item).toList := by
  simp [repeated]

/-- One hundred and fifty objects: a full page and a second request. -/
theorem paginatedList_complete_iff_full_page :
    let run := paginatedList (repeated 'a') "/users" (fun _ => "GET /users")
      (lengthServer (List.range' 1 150)).respond fun _ => none
    run.result = .ok (List.range' 1 150) ∧ run.requests = 2 ∧
      List.range' 1 150 = run.pages.flatten := by
  have hlaw := paginatedList_complete_iff (repeated 'a') "/users" (fun _ => "GET /users")
    (lengthServer (List.range' 1 150)).respond (fun _ => none) (lengthServer (List.range' 1 150))
    (nodup_range_letters 150) (letters_ne_empty 150)
  have hpages : (lengthServer (List.range' 1 150)).objects.length / keycloakPageSize = 1 := by
    decide +kernel
  have hfits : ∀ index ≤ 1, (lengthServer (List.range' 1 150)).Fits index := by
    unfold Server.Fits
    decide +kernel
  rw [hpages] at hlaw
  have hlisted := hlaw.2.mpr fun index hindex => ⟨hfits index hindex,
    recognised_of_plain _ (nodup_range_letters 150) (fun item _ => letters_plain item)
      (by decide +kernel)⟩
  exact ⟨hlisted.1, hlisted.2, (hlaw.1 _ hlisted.1).1⟩

/-- Identities without NUL: the listing is complete whenever the bodies fit. -/
theorem paginatedList_complete_of_plain {T : Type} (identity : T → String)
    (collectionPath : String) (operation : Nat → String) {server : Server T}
    (hnodup : (server.objects.map identity).Nodup)
    (hnonempty : ∀ item ∈ server.objects, identity item ≠ "")
    (hplain : ∀ item ∈ server.objects, '\x00' ∉ (identity item).toList)
    (hlen : server.objects.length ≤ maxInt)
    (hfits : ∀ index ≤ server.objects.length / keycloakPageSize, server.Fits index) :
    (paginatedList identity collectionPath operation server.respond fun _ => none).result =
        .ok server.objects ∧
      (paginatedList identity collectionPath operation server.respond fun _ => none).requests =
        server.objects.length / keycloakPageSize + 1 := by
  rcases paginatedList_server_cases hnodup hnonempty collectionPath operation with
    ⟨-, hlisted⟩ | ⟨⟨index, hle, hnot⟩, -⟩
  · exact hlisted
  · exact absurd ⟨hfits index hle, recognised_of_plain identity hnodup hplain hlen⟩ hnot

theorem paginatedList_complete_of_plain_two_pages :
    let run := paginatedList (repeated 'a') "/users" (fun _ => "GET /users")
      (lengthServer (List.range' 1 250)).respond fun _ => none
    run.result = .ok (List.range' 1 250) ∧ run.requests = 3 := by
  have hpages : (lengthServer (List.range' 1 250)).objects.length / keycloakPageSize = 2 := by
    decide +kernel
  have hfits : ∀ index ≤ 2, (lengthServer (List.range' 1 250)).Fits index := by
    unfold Server.Fits
    decide +kernel
  have hlisted := @paginatedList_complete_of_plain _ (repeated 'a') "/users"
    (fun _ => "GET /users") (lengthServer (List.range' 1 250)) (nodup_range_letters 250)
    (letters_ne_empty 250) (fun item _ => letters_plain item) (by decide +kernel)
    (by rwa [hpages])
  rwa [hpages] at hlisted

/-! ## Two pages with one signature -/

/-- Two full pages of different lengths that add up to the same number of NULs. -/
def nullObjects : List Nat :=
  (List.range 50).flatMap (fun k => [4 * k + 1, 4 * k + 4]) ++
    (List.range 50).flatMap (fun k => [4 * k + 2, 4 * k + 3])

theorem signature_nulls (counts : List Nat) :
    keycloakPageSignature (repeated '\x00') counts =
      repeated '\x00' (counts.map (· + 1)).sum := by
  induction counts with
  | nil => rfl
  | cons count rest ih =>
    apply String.toList_injective
    rw [toList_signature_cons, ih, repeated, repeated, repeated, String.toList_ofList,
      String.toList_ofList, String.toList_ofList, map_cons, sum_cons, replicate_add,
      replicate_succ', append_assoc]
    rfl

/-- A collection with distinct, non-empty identities that is not listed: the second
page is taken for the first one. -/
theorem paginatedList_refuses_distinct_pages :
    (nullObjects.map (repeated '\x00')).Nodup ∧
      (∀ item ∈ nullObjects, repeated '\x00' item ≠ "") ∧
      ∃ err, (paginatedList (repeated '\x00') "/users" (fun _ => "GET /users")
        (lengthServer nullObjects).respond fun _ => none).result = .error err := by
  have hnodup : (nullObjects.map (repeated '\x00')).Nodup :=
    List.Nodup.map (repeated_injective _) (by decide +kernel)
  have hnonempty : ∀ item ∈ nullObjects, repeated '\x00' item ≠ "" := by
    intro item hitem hempty
    have hpositive : ∀ item ∈ nullObjects, item ≠ 0 := by decide +kernel
    exact hpositive item hitem (repeated_injective _ hempty)
  refine ⟨hnodup, hnonempty, ?_⟩
  have hrepeated : ¬Recognised (repeated '\x00') nullObjects 1 := by
    have hsums : ((pageAt nullObjects 1).map (· + 1)).sum =
        ((pageAt nullObjects 0).map (· + 1)).sum := by decide +kernel
    refine fun h => h.1 ?_
    rw [signature_nulls, hsums, ← signature_nulls]
    exact mem_map_of_mem (mem_range.mpr one_pos)
  have hpages : (lengthServer nullObjects).objects.length / keycloakPageSize = 2 := by
    decide +kernel
  rcases @paginatedList_server_cases _ _ (lengthServer nullObjects) hnodup hnonempty "/users"
    (fun _ => "GET /users") with ⟨hall, -⟩ | ⟨-, herror⟩
  · rw [hpages] at hall
    exact absurd ((hall 1 (by decide)).2 (by rw [hpages]; decide)) hrepeated
  · exact herror

end Atum.Provider
