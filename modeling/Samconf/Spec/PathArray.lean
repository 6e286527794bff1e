/-
# What the path functions do in memory

On every supply the functions do in memory what they do on lists: the tokeniser stores as
many entries as the array was sized for, each before the next place, and the buffer of a
joined path is written up to its end.
-/

import Samconf.Model.PathArray
import Samconf.Spec.Path

namespace Samconf

open Foundation
open Exec (Yields Avoids)

namespace Memory

/-- An array whose first places hold strings, and so many more that are unset. -/
def filled (entries : List CString) (left : ℕ) : List Slot :=
  entries.map .string ++ .replicate left .unset

variable {entries before : List CString} {left index : ℕ}

@[simp]
theorem filled_zero (entries : List CString) : filled entries 0 = entries.map .string := by
  simp [filled]

theorem filled_concat (before : List CString) (token : CString) (left : ℕ) :
    before.map Slot.string ++ .string token :: .replicate left .unset =
      filled (before ++ [token]) left := by
  simp [filled]

/-- The next place takes what is stored. -/
theorem store_filled (before : List CString) (left : ℕ) (slot : Slot) :
    store (filled before (left + 1)) before.length slot =
      pure (before.map .string ++ slot :: .replicate left .unset) := by
  have hset : (filled before (left + 1)).set before.length slot =
      before.map .string ++ slot :: .replicate left .unset := by
    simp [filled, List.replicate_succ]
  rw [store, if_pos (by simp [filled]), hset]

/-- Entries that were stored can be released. -/
theorem samconfPathDeleteArray_stored (before : List CString) (more : List Slot) {n i : ℕ}
    (h : i + n ≤ before.length) :
    samconfPathDeleteArray (before.map .string ++ more) n i = pure () := by
  induction n generalizing i with
  | zero => rfl
  | succ n ih =>
      have hlt : i < before.length := by omega
      have hslot : (before.map Slot.string ++ more)[i]? = some (.string before[i]) := by
        rw [List.getElem?_append_left (by simpa using hlt)]
        simp [hlt]
      simp only [samconfPathDeleteArray, hslot, deref_some, Exec.pure_bind, reduceCtorEq,
        if_false]
      exact ih (by omega)

theorem entry_stored {s : CString} {i : ℕ} (h : entries[i]? = some s) :
    entry (entries.map .string) i = pure s := by
  simp [entry, h]

/-! ## Splitting -/

/-- **The loop** stores the tokens into the places there are for them, or stops. -/
theorem storeTokens_eq (n : ℕ) (before : List CString) (s : CString) :
    (storeTokens n (filled before (pathSegments s).length) before.length s >>= fun r =>
        pure (if r.1 then some r.2 else none)) =
      collectTokens n s >>= fun r =>
        pure (r.map fun entries =>
          (before.length + entries.length, (before ++ entries).map Slot.string)) := by
  induction n generalizing before s with
  | zero => rfl
  | succ n ih =>
      rw [storeTokens, collectTokens, pathSegments, segments_eq_nextToken]
      cases nextToken '/' s with
      | none => simp
      | some r =>
          rcases r with ⟨token, rest⟩
          simp only [List.length_cons, Exec.bind_assoc]
          refine Exec.bind_congr (Exec.ensures_allocFor token) ?_
          rintro copy (rfl | rfl)
          · rw [store_filled, Exec.pure_bind]
            simp only
            rw [samconfPathDeleteArray_stored before _ (by simp)]
            rfl
          · rw [store_filled, Exec.pure_bind, Slot.ofCopy, filled_concat]
            have hrest := ih (before ++ [token]) rest
            rw [List.length_append, List.length_singleton] at hrest
            simp only
            rw [hrest, Exec.bind_assoc]
            congr 1
            funext r
            cases r with
            | none => rfl
            | some entries =>
                have hcount : before.length + 1 + entries.length =
                    before.length + (entries.length + 1) := by omega
                simp [hcount]

/-- The same of the array that is sized by the count. -/
theorem storeTokens_count (path : CString) :
    (storeTokens (path.length + 1) (.replicate (pathGetSegmentCount path) .unset) 0 path >>=
        fun r => pure (if r.1 then some r.2 else none)) =
      collectTokens (path.length + 1) path >>= fun r =>
        pure (r.map fun entries => (entries.length, entries.map Slot.string)) := by
  have heq := storeTokens_eq (path.length + 1) [] path
  simpa [filled, pathGetSegmentCount_eq] using heq

/-- Without failing allocations every place is stored to, and no store is left over. -/
theorem storeTokens_yields (path : CString) :
    (storeTokens (path.length + 1) (.replicate (pathGetSegmentCount path) .unset) 0 path).Yields
      (true, pathGetSegmentCount path, (pathSegments path).map .string) := by
  have hstored := (collectTokens_yields (Nat.lt_succ_self path.length)).bind
    (f := fun r => pure (r.map fun entries => (entries.length, entries.map Slot.string)))
    (Exec.yields_pure _)
  rw [← storeTokens_count] at hstored
  obtain ⟨⟨arrayCreated, stored⟩, hrun, hsame⟩ := Exec.yields_bind_pure_iff.mp hstored
  cases arrayCreated with
  | false => cases hsame
  | true =>
      obtain rfl : stored = ((pathSegments path).length, (pathSegments path).map Slot.string) := by
        simpa using hsame
      rw [pathGetSegmentCount_eq] at hrun ⊢
      exact hrun

/-- **Splitting in memory** is splitting into a list. -/
theorem samconfPathCreateArray_eq (path : CString) :
    samconfPathCreateArray (some path) = Samconf.samconfPathCreateArray path >>= fun r =>
      pure (r.1, if r.1 = .ok then some (r.2.map .string) else none, r.2.length) := by
  rw [samconfPathCreateArray, Samconf.samconfPathCreateArray, Exec.bind_assoc]
  refine Exec.bind_congr (Exec.ensures_allocFor path) ?_
  rintro pathCopy (rfl | rfl)
  · rfl
  · simp only [Exec.bind_assoc]
    congr 1
    funext granted
    cases granted with
    | false => rfl
    | true =>
        simp only [if_true]
        calc
          _ = (storeTokens (path.length + 1) (.replicate (pathGetSegmentCount path) .unset) 0
                path >>= fun r => pure (if r.1 then some r.2 else none)) >>= fun r =>
              pure (r.elim (.error, none, 0) fun stored =>
                (.ok, some stored.2, pathGetSegmentCount path)) := by
            rw [Exec.bind_assoc]
            congr 1
            funext r
            rcases r with ⟨_ | _, stored⟩ <;> rfl
          _ = _ := by
            rw [storeTokens_count, Exec.bind_assoc, Exec.bind_assoc]
            refine Exec.bind_congr (collectTokens_ensures _ path) ?_
            rintro entries (rfl | rfl)
            · rfl
            · simp [pathGetSegmentCount_eq]

/-! ## Joining -/

/-- A buffer that is written up to its end. -/
def full (s : CString) : Buffer := ⟨s.length + 1, s, Nat.le_refl _⟩

theorem addLengths_eq {n i : ℕ} (pathLen : ℕ) (h : i + n ≤ entries.length) :
    addLengths (entries.map .string) n i pathLen =
      pure (pathLen + (((entries.drop i).take n).map List.length).sum) := by
  induction n generalizing i pathLen with
  | zero => simp [addLengths]
  | succ n ih =>
      have hlt : i < entries.length := by omega
      rw [addLengths, entry_stored (List.getElem?_eq_getElem hlt), Exec.pure_bind,
        ih _ (by omega), List.drop_eq_getElem_cons hlt, List.take_succ_cons, List.map_cons,
        List.sum_cons, Nat.add_assoc]

theorem strcat_eq (dest : Buffer) (src : CString)
    (h : (dest.string ++ src).length + 1 ≤ dest.size) :
    strcat dest src = pure ⟨dest.size, dest.string ++ src, h⟩ := dif_pos h

/-- The rounds that are left append the segments that are left, with separators between. -/
theorem catSegments_eq {n i : ℕ} (hindex : index < entries.length) (hn : i + n = index + 1)
    (newPath : Buffer)
    (hfits : (newPath.string ++ ['/'].intercalate ((entries.drop i).take n)).length + 1 ≤
      newPath.size) :
    catSegments (entries.map .string) index n i newPath =
      pure ⟨newPath.size, newPath.string ++ ['/'].intercalate ((entries.drop i).take n),
        hfits⟩ := by
  induction n generalizing i newPath with
  | zero => simp [catSegments]
  | succ n ih =>
      have hlt : i < entries.length := by omega
      have hsplit : (entries.drop i).take (n + 1) =
          entries[i] :: (entries.drop (i + 1)).take n := by
        rw [List.drop_eq_getElem_cons hlt, List.take_succ_cons]
      simp only [hsplit] at hfits ⊢
      rw [catSegments, entry_stored (List.getElem?_eq_getElem hlt), Exec.pure_bind]
      cases n with
      | zero =>
          obtain rfl : i = index := by omega
          rw [strcat_eq _ _ (by simpa using hfits)]
          simp [catSegments]
      | succ n =>
          have hne : i ≠ index := by omega
          have hnext : (entries.drop (i + 1)).take (n + 1) ≠ [] := by
            rw [← List.length_pos_iff, List.length_take, List.length_drop]
            omega
          have hjoin : newPath.string ++ ['/'].intercalate
              (entries[i] :: (entries.drop (i + 1)).take (n + 1)) =
              newPath.string ++ entries[i] ++ ['/'] ++
                ['/'].intercalate ((entries.drop (i + 1)).take (n + 1)) := by
            simp [List.intercalate_cons_of_ne_nil hnext]
          simp only [hjoin] at hfits ⊢
          have hslash : (newPath.string ++ entries[i] ++ ['/']).length + 1 ≤ newPath.size := by
            rw [List.length_append] at hfits
            omega
          have hsegment : (newPath.string ++ entries[i]).length + 1 ≤ newPath.size := by
            rw [List.length_append] at hslash
            omega
          rw [strcat_eq _ _ hsegment, Exec.pure_bind, if_pos hne, strcat_eq _ _ hslash,
            Exec.pure_bind]
          exact ih (by omega) _ hfits

/-- **Joining in memory** is joining lists, into a buffer of the length of the path. -/
theorem samconfPathGetPathUntil_eq (h : index < entries.length) :
    samconfPathGetPathUntil (entries.map .string) index =
      Samconf.samconfPathGetPathUntil entries index >>= fun r =>
        pure (r.elim (.error, none) fun s => (.ok, some (full s))) := by
  have hlength : ((entries.take (index + 1)).map List.length).sum + (index + 1) =
      (['/'].intercalate (entries.take (index + 1))).length + 1 := by
    rw [length_intercalate, List.length_take_of_le h]
    omega
  rw [samconfPathGetPathUntil, addLengths_eq 0 (by omega), Exec.pure_bind, Nat.zero_add,
    List.drop_zero, hlength, Samconf.samconfPathGetPathUntil_eq, Exec.allocFor, Exec.bind_assoc]
  refine Exec.bind_congr (Exec.ensures_true _) fun granted _ => ?_
  cases granted with
  | false => rfl
  | true =>
      have hcat := catSegments_eq h (Nat.zero_add _)
        ⟨(['/'].intercalate (entries.take (index + 1))).length + 1, [], by simp⟩
        (Nat.le_refl _)
      simp only [if_true, terminate]
      rw [dif_pos (by omega), Exec.pure_bind, hcat]
      rfl

end Memory

end Samconf
