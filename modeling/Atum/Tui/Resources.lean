import Mathlib.Data.Finset.Card
import Atum.Go.Strings
import Atum.Tui.Progress

/-!
# Rows of resources

`updateResource` is called for every line of terraform's output that tells the state of
a resource.  It keeps three sets of addresses for each row of the screen, and reports the
row from their sizes.  `resourcesAfter_eq` says what the sets are in terms of the calls:
the first addresses of the row up to the limit, and those of them whose last call
completed or failed.
-/

namespace Atum.Tui

open Atum.Go List

/-! ## The model -/

def observedResourceLimit : Nat := 512

/-- `resourceSet` -/
structure ResourceSet where
  expected : Finset String := ∅
  complete : Finset String := ∅
  failed : Finset String := ∅

structure ResourceRow where
  id : String
  label : String
  aggregate : Bool

def terraformResource (address : String) : ResourceRow :=
  if hasPrefix address "libvirt_network." then ⟨"network", "Network", false⟩
  else if hasPrefix address "libvirt_domain.load_balancer" then
    ⟨"load-balancer", "Load balancer", false⟩
  else if hasPrefix address "libvirt_domain.bastion" then ⟨"bastion", "Bastion", false⟩
  else if hasPrefix address "libvirt_domain.node[" then ⟨"nodes", "Nodes", true⟩
  else if hasPrefix address "libvirt_volume." || hasPrefix address "libvirt_cloudinit_disk." then
    ⟨"storage", "Storage", true⟩
  else ⟨"", "", false⟩

/-- A call of `updateResource`.  `seedActivity` is a field of the parser that other lines
of the output set. -/
structure ResourceCall where
  address : String
  state : ProgressState
  detail : String
  seedActivity : Bool

structure LabelledEvent extends Event where
  label : String

/-- The update of the three sets. -/
def ResourceSet.record (set : ResourceSet) (address : String) (state : ProgressState) :
    ResourceSet :=
  let expected := insert address set.expected
  match state with
  | .complete => ⟨expected, insert address set.complete, set.failed.erase address⟩
  | .failed => ⟨expected, set.complete.erase address, insert address set.failed⟩
  | _ => ⟨expected, set.complete.erase address, set.failed.erase address⟩

def ResourceSet.state (set : ResourceSet) : ProgressState :=
  if set.failed.card ≠ 0 then .failed
  else if set.expected.card ≠ 0 ∧ set.complete.card = set.expected.card then .complete
  else .running

/-- The event of a row.  The counts are those of an aggregate row. -/
def ResourceRow.event (row : ResourceRow) (detail : String) (state : ProgressState)
    (complete expected : Nat) : LabelledEvent where
  phase := "infrastructure"
  id := row.id
  label := row.label
  detail := detail
  state := state
  current := if row.aggregate then complete else 0
  total := if row.aggregate then expected else 0

/-- `updateResource`: the sets after the call, and the events it reports.  A row that is
not in the map has empty sets. -/
def updateResource (resources : String → ResourceSet) (call : ResourceCall) :
    (String → ResourceSet) × List LabelledEvent :=
  if hasPrefix call.address "terraform_data.seed_plane" then
    if call.state = .running ∧ call.seedActivity then (resources, [])
    else
      (resources, [("seed-forgejo", "Forgejo"), ("seed-harbor", "Seed Harbor")].map
        fun (id, label) =>
          { phase := "infrastructure", id, label, detail := call.detail, state := call.state })
  else
    let row := terraformResource call.address
    if row.id = "" then (resources, [])
    else
      let set := resources row.id
      if call.address ∉ set.expected ∧ set.expected.card ≥ observedResourceLimit then
        (resources, [])
      else
        let set := set.record call.address call.state
        (Function.update resources row.id set,
          [row.event call.detail set.state set.complete.card set.expected.card])

/-- The sets after a sequence of calls. -/
def resourcesAfter (calls : List ResourceCall) : String → ResourceSet :=
  calls.foldl (fun resources call => (updateResource resources call).1) fun _ => {}

/-! ## What the calls say -/

/-- The row that an address is counted in. -/
def resourceRow (address : String) : Option ResourceRow :=
  if hasPrefix address "terraform_data.seed_plane" ∨ (terraformResource address).id = "" then none
  else some (terraformResource address)

/-- The first addresses of a row, up to the limit. -/
def known (id : String) (calls : List ResourceCall) : List String :=
  ((calls.map (·.address)).filter fun address => (resourceRow address).any (·.id = id))
    |>.eraseDups.take observedResourceLimit

/-- The state that was reported last for an address. -/
def latest (calls : List ResourceCall) (address : String) : Option ProgressState :=
  (calls.reverse.find? (·.address = address)).map (·.state)

/-- The event that the calls say for a row. -/
def expectedEvent (calls : List ResourceCall) (row : ResourceRow) (detail : String) :
    LabelledEvent :=
  let addresses := known row.id calls
  row.event detail
    (if ∃ address ∈ addresses, latest calls address = some .failed then .failed
      else if ∀ address ∈ addresses, latest calls address = some .complete then .complete
      else .running)
    (addresses.countP (latest calls · = some .complete)) addresses.length

/-- The sets that the calls say. -/
def summary (calls : List ResourceCall) (id : String) : ResourceSet where
  expected := (known id calls).toFinset
  complete := (known id calls).toFinset.filter (latest calls · = some .complete)
  failed := (known id calls).toFinset.filter (latest calls · = some .failed)

variable {calls : List ResourceCall} {call : ResourceCall} {id address : String}

theorem known_concat (id : String) (calls : List ResourceCall) (call : ResourceCall) :
    known id (calls ++ [call]) =
      if (resourceRow call.address).any (·.id = id) ∧ call.address ∉ known id calls ∧
        (known id calls).length < observedResourceLimit then known id calls ++ [call.address]
      else known id calls := by
  unfold known
  rw [map_append, filter_append, eraseDups_append]
  set before := (calls.map (·.address)).filter fun address => (resourceRow address).any (·.id = id)
  by_cases hrow : (resourceRow call.address).any (·.id = id)
  swap
  · simp [hrow, removeAll]
  by_cases hmem : call.address ∈ before
  · rw [if_neg]
    · simp [hrow, removeAll, hmem]
    · rintro ⟨-, hnew, hroom⟩
      rw [length_take] at hroom
      rw [take_of_length_le (by omega), mem_eraseDups] at hnew
      exact hnew hmem
  have hnew : call.address ∉ before.eraseDups.take observedResourceLimit := fun h =>
    hmem (mem_eraseDups.mp (mem_of_mem_take h))
  have hlast : ((([call].map (·.address)).filter fun address =>
      (resourceRow address).any (·.id = id)).removeAll before).eraseDups = [call.address] := by
    simp [hrow, removeAll, hmem, eraseDups_cons]
  rw [hlast, take_append, length_take]
  by_cases hroom : before.eraseDups.length < observedResourceLimit
  · rw [if_pos ⟨hrow, hnew, by omega⟩]
    obtain ⟨room, hlimit⟩ := Nat.exists_eq_add_of_lt hroom
    rw [hlimit, add_assoc, Nat.add_sub_cancel_left, take_succ_cons, take_nil]
  · rw [if_neg fun h => by omega, Nat.sub_eq_zero_of_le (by omega), take_zero, append_nil]

theorem latest_concat (calls : List ResourceCall) (call : ResourceCall) (address : String) :
    latest (calls ++ [call]) address =
      if call.address = address then some call.state else latest calls address := by
  rw [latest, reverse_append, reverse_singleton, singleton_append, find?_cons]
  split
  · next h => rw [if_pos (of_decide_eq_true h)]; rfl
  · next h => rw [if_neg (of_decide_eq_false h)]; rfl

theorem nodup_known (id : String) (calls : List ResourceCall) : (known id calls).Nodup := by
  induction calls using reverseRecOn with
  | nil => exact nodup_nil
  | append_singleton calls call ih =>
    rw [known_concat]
    split
    · next h => simpa using ih.concat h.2.1
    · exact ih

theorem card_known (id : String) (calls : List ResourceCall) :
    (known id calls).toFinset.card = (known id calls).length :=
  toFinset_card_of_nodup (nodup_known id calls)

theorem row_of_mem_known (h : address ∈ known id calls) :
    (resourceRow address).any (·.id = id) :=
  (mem_filter.mp (mem_eraseDups.mp (mem_of_mem_take h))).2

/-! ## One call -/

/-- The addresses with a state after one more call. -/
theorem filter_latest_concat (addresses : Finset String) (state : ProgressState) :
    (insert call.address addresses).filter (latest (calls ++ [call]) · = some state) =
      if call.state = state then
        insert call.address (addresses.filter (latest calls · = some state))
      else (addresses.filter (latest calls · = some state)).erase call.address := by
  ext address
  by_cases haddress : call.address = address
  · split <;> simp_all [latest_concat]
  · split <;> simp [latest_concat, haddress, Ne.symm haddress]

theorem summary_of_counted (h : call.address ∈ known id (calls ++ [call])) :
    summary (calls ++ [call]) id = (summary calls id).record call.address call.state := by
  have hknown : (known id (calls ++ [call])).toFinset =
      insert call.address (known id calls).toFinset := by
    rw [known_concat] at h ⊢
    split at h
    · next hnew => simp [hnew]
    · next hold => simp [hold, Finset.insert_eq_of_mem (mem_toFinset.mpr h)]
  unfold summary
  rw [hknown, filter_latest_concat, filter_latest_concat]
  cases call.state <;> rfl

theorem summary_of_not_counted (h : call.address ∉ known id (calls ++ [call])) :
    summary (calls ++ [call]) id = summary calls id := by
  have hknown : known id (calls ++ [call]) = known id calls := by
    rw [known_concat] at h ⊢
    split at h
    · simp at h
    · next hold => exact if_neg hold
  rw [hknown] at h
  have hfilter : ∀ state, (known id calls).toFinset.filter
      (latest (calls ++ [call]) · = some state) =
        (known id calls).toFinset.filter (latest calls · = some state) := by
    refine fun state => Finset.filter_congr fun address haddress => ?_
    rw [latest_concat, if_neg]
    rintro rfl
    exact h (mem_toFinset.mp haddress)
  unfold summary
  rw [hknown, hfilter, hfilter]

/-- The event of the sets that the calls say. -/
theorem summary_event {row : ResourceRow} (h : known row.id calls ≠ []) (detail : String) :
    row.event detail (summary calls row.id).state (summary calls row.id).complete.card
      (summary calls row.id).expected.card = expectedEvent calls row detail := by
  have hcount : (summary calls row.id).complete.card =
      (known row.id calls).countP (latest calls · = some .complete) := by
    rw [countP_eq_length_filter, ← toFinset_card_of_nodup ((nodup_known row.id calls).filter _),
      toFinset_filter]
    simp [summary]
  rw [hcount, expectedEvent, ResourceSet.state]
  simp only [summary, Finset.card_ne_zero, Finset.filter_nonempty_iff, Finset.card_filter_eq_iff,
    mem_toFinset, toFinset_nonempty_iff, h, not_false_eq_true, true_and, ne_eq]
  rw [card_known]

theorem updateResource_of_none (h : resourceRow call.address = none)
    (resources : String → ResourceSet) : (updateResource resources call).1 = resources := by
  unfold updateResource
  split
  · split <;> rfl
  next hseed =>
  by_cases hid : (terraformResource call.address).id = ""
  · rw [if_pos hid]
  · rw [resourceRow, if_neg (not_or.mpr ⟨hseed, hid⟩)] at h
    cases h

/-- A call for a row, on the sets that the calls before say. -/
theorem updateResource_of_some {row : ResourceRow} (h : resourceRow call.address = some row) :
    updateResource (summary calls) call =
      if call.address ∈ known row.id (calls ++ [call]) then
        (summary (calls ++ [call]), [expectedEvent (calls ++ [call]) row call.detail])
      else (summary calls, []) := by
  have hany : (resourceRow call.address).any (·.id = row.id) := by simp [h]
  have hfull : call.address ∉ (summary calls row.id).expected ∧
      (summary calls row.id).expected.card ≥ observedResourceLimit ↔
        call.address ∉ known row.id (calls ++ [call]) := by
    rw [known_concat, summary, mem_toFinset, card_known]
    split
    · next hnew => simp [hnew]
    · next hold =>
      refine ⟨And.left, fun hnot => ⟨hnot, ?_⟩⟩
      by_contra hroom
      exact hold ⟨hany, hnot, not_le.mp hroom⟩
  have hrow := h
  rw [resourceRow] at hrow
  split at hrow
  · cases hrow
  next hcounted =>
  obtain ⟨hseed, hid⟩ := not_or.mp hcounted
  rw [Option.some.inj hrow] at hid
  rw [updateResource, if_neg hseed, Option.some.inj hrow]
  simp only [if_neg hid]
  by_cases hnew : call.address ∈ known row.id (calls ++ [call])
  swap
  · rw [if_neg hnew, if_pos (hfull.mpr hnew)]
  have hset := summary_of_counted hnew
  have hresources : Function.update (summary calls) row.id
      ((summary calls row.id).record call.address call.state) = summary (calls ++ [call]) := by
    rw [← hset, Function.update_eq_iff]
    refine ⟨rfl, fun other hother => (summary_of_not_counted fun hmem => hother ?_).symm⟩
    have hany := row_of_mem_known hmem
    rw [h] at hany
    exact (of_decide_eq_true hany).symm
  rw [if_neg fun hnot => hfull.mp hnot hnew, if_pos hnew, hresources, ← hset,
    summary_event (ne_nil_of_mem hnew)]

/-- The sets are what the calls say. -/
theorem resourcesAfter_eq (calls : List ResourceCall) : resourcesAfter calls = summary calls := by
  induction calls using reverseRecOn with
  | nil => rfl
  | append_singleton calls call ih =>
    have hstep : resourcesAfter (calls ++ [call]) = (updateResource (summary calls) call).1 := by
      rw [← ih, resourcesAfter, foldl_append]
      rfl
    have hsame : (∀ id, call.address ∉ known id (calls ++ [call])) →
        summary calls = summary (calls ++ [call]) := fun h =>
      funext fun id => (summary_of_not_counted (h id)).symm
    rw [hstep]
    cases hrow : resourceRow call.address with
    | none =>
      rw [updateResource_of_none hrow]
      refine hsame fun id hmem => ?_
      have hany := row_of_mem_known hmem
      rw [hrow] at hany
      cases hany
    | some row =>
      rw [updateResource_of_some hrow]
      split
      · rfl
      · next hnew =>
        refine hsame fun id hmem => hnew ?_
        have hany := row_of_mem_known hmem
        rw [hrow] at hany
        rwa [of_decide_eq_true hany]

/-- After any calls, a call for an address that its row counts reports the row from the
last states of the counted addresses, which are the first ones of the row up to the limit.
A call for a further address of the row changes and reports nothing, and a call for no
row changes nothing. -/
theorem updateResource_aggregates (calls : List ResourceCall) (call : ResourceCall) :
    match resourceRow call.address with
    | none => (updateResource (resourcesAfter calls) call).1 = resourcesAfter calls
    | some row =>
      if call.address ∈ known row.id (calls ++ [call]) then
        (updateResource (resourcesAfter calls) call).2 =
          [expectedEvent (calls ++ [call]) row call.detail]
      else updateResource (resourcesAfter calls) call = (resourcesAfter calls, []) := by
  cases hrow : resourceRow call.address with
  | none => exact updateResource_of_none hrow _
  | some row =>
    simp only [resourcesAfter_eq, updateResource_of_some hrow]
    split
    · rfl
    · rfl

/-- The row of the network has no counts. -/
theorem updateResource_network_uncounted :
    let call : ResourceCall := ⟨"libvirt_network.atum", .complete, "", false⟩
    (updateResource (resourcesAfter []) call).2.map (fun event => (event.current, event.total)) =
      [(0, 0)] ∧ (known "network" [call]).length = 1 := by
  decide +kernel

end Atum.Tui
