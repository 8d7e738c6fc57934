import Mathlib.Algebra.Group.Nat.Defs
import Mathlib.Data.List.TakeWhile

/-!
# The line observer

The terminal interface watches the output of a subprocess line by line.
`lineObserver` is a writer: it keeps the line that is not finished yet, hands every
finished line to the session, and drops a line that grows beyond the limit.

The state of the observer is a function of the line that it has seen so far
(`onLine`).  `write_onLine` says what one call of `Write` does to that line, and
`lineObserver_chunking` follows for every sequence of calls: what is observed depends
on the bytes only, not on how they are split.
-/

namespace Atum.Tui

open List

abbrev Bytes := List UInt8

def observedLineLimit : Nat := 128 * 2 ^ 10

def newline : UInt8 := 10

/-- `lineObserver`, with the lines that it has handed to the session. -/
structure LineObserver where
  buffer : Bytes := []
  drop : Bool := false
  observed : List Bytes := []
  deriving DecidableEq, Repr

namespace LineObserver

def flush (observer : LineObserver) : LineObserver where
  buffer := []
  drop := false
  observed :=
    if !observer.drop && observer.buffer != [] then observer.observed ++ [observer.buffer]
    else observer.observed

/-- What `Write` does with the bytes up to the next newline. -/
def absorb (observer : LineObserver) (part : Bytes) : LineObserver :=
  if observer.drop then observer
  else if observer.buffer.length + part.length ≤ observedLineLimit then
    { observer with buffer := observer.buffer ++ part }
  else { observer with buffer := [], drop := true }

/-- `Write`: the observer after it, and the number of consumed bytes. -/
def write (observer : LineObserver) (data : Bytes) : LineObserver × Nat :=
  let part := data.takeWhile (· ≠ newline)
  match _hrest : data.dropWhile (· ≠ newline) with
  | [] => if data = [] then (observer, 0) else (observer.absorb part, part.length)
  | _ :: rest =>
    let (after, consumed) := write (observer.absorb part).flush rest
    (after, part.length + 1 + consumed)
termination_by data.length
decreasing_by
  have hle := (List.dropWhile_suffix (l := data) (· ≠ newline)).length_le
  rw [_hrest, List.length_cons] at hle
  omega

def close (observer : LineObserver) : LineObserver :=
  let observer := if observer.buffer != [] && !observer.drop then observer.flush else observer
  { observer with buffer := [] }

/-- Calls of `Write` one after the other: the observer, and what each call returns. -/
def writeAll : LineObserver → List Bytes → LineObserver × List Nat
  | observer, [] => (observer, [])
  | observer, chunk :: rest =>
    let (observer, consumed) := observer.write chunk
    let (observer, counts) := writeAll observer rest
    (observer, consumed :: counts)

end LineObserver

/-! ## Lines -/

/-- The finished lines of a text. -/
def finishedLines (text : Bytes) : List Bytes := (text.splitOn newline).dropLast

/-- The line after the last newline. -/
def openLine (text : Bytes) : Bytes := (text.splitOn newline).getLastD []

/-- A line that is observed. -/
def Observed (line : Bytes) : Bool := line != [] && decide (line.length ≤ observedLineLimit)

theorem finishedLines_append_openLine (text : Bytes) :
    finishedLines text ++ [openLine text] = text.splitOn newline := by
  rw [finishedLines, openLine, getLastD_eq_getLast?,
    List.getLast?_eq_some_getLast (splitOn_ne_nil newline text), Option.getD_some]
  exact dropLast_concat_getLast (splitOn_ne_nil newline text)

theorem lines_of_not_mem {text : Bytes} (h : newline ∉ text) :
    finishedLines text = [] ∧ openLine text = text := by
  rw [finishedLines, openLine, splitOn_eq_singleton h]
  exact ⟨rfl, rfl⟩

theorem lines_append_newline {line : Bytes} (h : newline ∉ line) (rest : Bytes) :
    finishedLines (line ++ newline :: rest) = line :: finishedLines rest ∧
      openLine (line ++ newline :: rest) = openLine rest := by
  have hsplit := splitOn_append_cons_self_of_not_mem h rest
  obtain ⟨first, others, hrest⟩ := exists_cons_of_ne_nil (splitOn_ne_nil newline rest)
  rw [finishedLines, finishedLines, openLine, openLine, hsplit, hrest]
  exact ⟨rfl, by simp⟩

/-- Lines go on from the open one. -/
theorem lines_append (text rest : Bytes) : newline ∉ openLine text ∧
      finishedLines (text ++ rest) = finishedLines text ++ finishedLines (openLine text ++ rest) ∧
      openLine (text ++ rest) = openLine (openLine text ++ rest) := by
  induction hlen : text.length using Nat.strongRecOn generalizing text with
  | ind length ih =>
    by_cases hmem : newline ∈ text
    · obtain ⟨line, after, rfl, hline⟩ := eq_append_cons_of_mem hmem
      rw [length_append, length_cons] at hlen
      obtain ⟨hfree, hfin, hopen⟩ := ih after.length (by omega) after rfl
      obtain ⟨hfirst, hlast⟩ := lines_append_newline hline after
      obtain ⟨hfirst', hlast'⟩ := lines_append_newline hline (after ++ rest)
      rw [append_assoc, cons_append, hfirst, hlast, hfirst', hlast', hfin, hopen]
      exact ⟨hfree, rfl, rfl⟩
    · obtain ⟨hfin, hopen⟩ := lines_of_not_mem hmem
      rw [hfin, hopen]
      exact ⟨hmem, rfl, rfl⟩

/-! ## What the calls do -/

namespace LineObserver

/-- The observer that has seen a line so far. -/
def onLine (line : Bytes) (observed : List Bytes) : LineObserver :=
  if line.length ≤ observedLineLimit then { buffer := line, observed := observed }
  else { drop := true, observed := observed }

theorem absorb_onLine (line part : Bytes) (observed : List Bytes) :
    (onLine line observed).absorb part = onLine (line ++ part) observed := by
  unfold onLine absorb
  rw [length_append]
  split_ifs <;> first | rfl | contradiction | omega

theorem flush_onLine (line : Bytes) (observed : List Bytes) : (onLine line observed).flush =
      onLine [] (observed ++ [line].filter Observed) := by
  unfold onLine flush Observed
  by_cases hlimit : line.length ≤ observedLineLimit
  · by_cases hempty : line = []
    · simp [hempty]
    · simp [hlimit, hempty]
  · simp [hlimit]

/-- One call of `Write` takes the observer from the open line to the next one. -/
theorem write_onLine (line : Bytes) (observed : List Bytes) (hline : newline ∉ line)
    (data : Bytes) : (onLine line observed).write data = (onLine (openLine (line ++ data))
        (observed ++ (finishedLines (line ++ data)).filter Observed), data.length) := by
  induction hlen : data.length using Nat.strongRecOn generalizing line observed data with
  | ind length ih =>
    have hsplit := takeWhile_append_dropWhile (p := (· ≠ newline)) (l := data)
    have hpart : newline ∉ data.takeWhile (· ≠ newline) := by
      intro hmem
      simpa using mem_takeWhile_imp hmem
    have hfree : newline ∉ line ++ data.takeWhile (· ≠ newline) := by
      rw [mem_append, not_or]
      exact ⟨hline, hpart⟩
    rw [write]
    split
    · next hrest =>
      rw [hrest, append_nil] at hsplit
      rw [hsplit] at hfree ⊢
      obtain ⟨hfin, hopen⟩ := lines_of_not_mem hfree
      rw [hfin, hopen, filter_nil, append_nil]
      split
      · next hempty =>
        subst hempty
        rw [append_nil, ← hlen]
        rfl
      · rw [absorb_onLine, hlen]
    · next first rest hrest =>
      have hfirst : first = newline := by
        have hhead := List.head?_dropWhile_not (p := (· ≠ newline)) (l := data)
        rw [hrest] at hhead
        simpa using hhead
      subst hfirst
      rw [hrest] at hsplit
      have hlengths := congrArg List.length hsplit
      rw [length_append, length_cons] at hlengths
      rw [absorb_onLine, flush_onLine, ih rest.length (by omega) [] _ (by simp) rest rfl]
      obtain ⟨hfin, hopen⟩ := lines_append_newline hfree rest
      rw [append_assoc, hsplit] at hfin hopen
      rw [hfin, hopen, nil_append]
      simp only [append_assoc, ← filter_append, singleton_append]
      rw [Prod.mk.injEq]
      exact ⟨rfl, by omega⟩

/-- So do many calls. -/
theorem writeAll_onLine (chunks : List Bytes) (line : Bytes) (observed : List Bytes)
    (hline : newline ∉ line) : writeAll (onLine line observed) chunks =
      (onLine (openLine (line ++ chunks.flatten))
        (observed ++ (finishedLines (line ++ chunks.flatten)).filter Observed),
        chunks.map List.length) := by
  induction chunks generalizing line observed with
  | nil =>
    obtain ⟨hfin, hopen⟩ := lines_of_not_mem hline
    rw [writeAll, flatten_nil, append_nil, hfin, hopen, filter_nil,
      append_nil, map_nil]
  | cons chunk rest ih =>
    obtain ⟨hfree, hfin, hopen⟩ := lines_append (line ++ chunk) rest.flatten
    simp only [writeAll, write_onLine line observed hline chunk, ih _ _ hfree]
    rw [flatten_cons, ← append_assoc, hfin, hopen, filter_append,
      append_assoc, map_cons]

theorem observed_close (observer : LineObserver) :
    observer.close.observed = observer.flush.observed := by
  unfold close flush
  cases observer.drop <;> by_cases hempty : observer.buffer = [] <;> simp [hempty]

end LineObserver

/-- However a stream is split into calls of `Write`, a fresh observer hands over the
lines of the stream that are not empty and within the limit, and every call consumes
its whole input. -/
theorem lineObserver_chunking (chunks : List Bytes) :
    (LineObserver.writeAll {} chunks).1.close.observed =
        (chunks.flatten.splitOn newline).filter Observed ∧
      (LineObserver.writeAll {} chunks).2 = chunks.map List.length := by
  have hstart : ({} : LineObserver) = LineObserver.onLine [] [] := rfl
  rw [hstart, LineObserver.writeAll_onLine chunks [] [] (by simp)]
  refine ⟨?_, rfl⟩
  rw [LineObserver.observed_close, LineObserver.flush_onLine, nil_append, nil_append,
    ← filter_append, finishedLines_append_openLine]
  rfl

end Atum.Tui
