import Mathlib.Data.List.Induction
import Mathlib.Data.List.Nodup
import Mathlib.Data.List.Perm.Basic
import ScriptTree.Keyed

/-!
# Entries with different keys

Setting an entry brings in no other one, and keys that are different stay different. Collapsing
repeated keys leaves each key where it was first and with the value that it had last; a list that
repeats none is left alone. Lists without repeated keys are the same up to order if they are equally
long and each entry of one is found in the other.
-/
namespace ScriptTree

/-! ## Dropping repeats -/

section EraseDups

variable {α β : Type} [BEq α] [LawfulBEq α] [BEq β] [LawfulBEq β]

theorem eraseDups_concat (xs : List α) (x : α) :
    (xs ++ [x]).eraseDups = if x ∈ xs then xs.eraseDups else xs.eraseDups ++ [x] := by
  rw [List.eraseDups_append]
  split
  · next h => simp [List.removeAll, h]
  · next h => simp [List.removeAll, h, List.eraseDups_cons]

theorem nodup_eraseDups (xs : List α) : xs.eraseDups.Nodup := by
  induction xs using List.reverseRecOn with
  | nil => simp
  | append_singleton xs x ih =>
    rw [eraseDups_concat]
    split
    · exact ih
    · next h =>
      rw [List.nodup_append]
      refine ⟨ih, List.nodup_singleton x, ?_⟩
      intro a ha b hb
      rw [List.mem_singleton.mp hb]
      rintro rfl
      exact h (List.mem_eraseDups.mp ha)

theorem eraseDups_append_cons_of_mem {xs : List α} {x : α} (h : x ∈ xs) (ys : List α) :
    (xs ++ x :: ys).eraseDups = (xs ++ ys).eraseDups := by
  have hsame : ys.removeAll (xs ++ [x]) = ys.removeAll xs := by
    apply List.filter_congr
    intro y _
    by_cases hy : y = x
    · simp [hy, h]
    · simp [hy]
  rw [List.append_cons, List.eraseDups_append, eraseDups_concat, if_pos h, hsame,
    ← List.eraseDups_append]

theorem eraseDups_map {f : α → β} (hf : Function.Injective f) (xs : List α) :
    (xs.map f).eraseDups = xs.eraseDups.map f := by
  induction xs using List.reverseRecOn with
  | nil => simp
  | append_singleton xs x ih =>
    rw [List.map_append, List.map_singleton, eraseDups_concat, eraseDups_concat, ih]
    simp only [List.mem_map_of_injective hf]
    split
    · rfl
    · rw [List.map_append, List.map_singleton]

end EraseDups

/-! ## Setting and collapsing -/

namespace Keyed

variable {κ α : Type} [DecidableEq κ]

theorem put_of_notMem {key : κ} {entries : List (κ × α)} (h : key ∉ entries.map Prod.fst)
    (value : α) : put key value entries = entries ++ [(key, value)] := by
  induction entries with
  | nil => rfl
  | cons e entries ih =>
    rw [List.map_cons, List.mem_cons, not_or] at h
    have hne : ¬ e.1 = key := fun he => h.1 he.symm
    rw [put, if_neg hne, ih h.2]
    rfl

/-- The entries that are still to be set come after those that have been, in their order. -/
theorem foldl_put_of_nodup {entries done : List (κ × α)}
    (h : ((done ++ entries).map Prod.fst).Nodup) :
    entries.foldl (fun acc e => put e.1 e.2 acc) done = done ++ entries := by
  induction entries generalizing done with
  | nil => exact (List.append_nil done).symm
  | cons e entries ih =>
    have hsplit : done ++ e :: entries = (done ++ [e]) ++ entries := by simp
    have hnew : e.1 ∉ done.map Prod.fst := by
      rw [List.map_append, List.map_cons] at h
      intro hmem
      exact List.disjoint_of_nodup_append h hmem (.head _)
    rw [hsplit] at h
    rw [List.foldl_cons, put_of_notMem hnew, ih h, hsplit]

theorem mem_put {key : κ} {value : α} {entries : List (κ × α)} {e : κ × α}
    (h : e ∈ put key value entries) : e = (key, value) ∨ e ∈ entries := by
  induction entries with
  | nil => exact .inl (List.mem_singleton.mp h)
  | cons d entries ih =>
    rw [put] at h
    split at h
    · next hk =>
      rcases List.mem_cons.mp h with rfl | hmem
      · exact .inl (by rw [hk])
      · exact .inr (.tail _ hmem)
    · rcases List.mem_cons.mp h with rfl | hmem
      · exact .inr (.head _)
      · exact (ih hmem).imp_right (.tail _)

theorem mem_putSorted [LT κ] [DecidableLT κ] {key : κ} {value : α} {entries : List (κ × α)}
    {e : κ × α} (h : e ∈ putSorted key value entries) : e = (key, value) ∨ e ∈ entries := by
  induction entries with
  | nil => exact .inl (List.mem_singleton.mp h)
  | cons d entries ih =>
    rw [putSorted] at h
    split at h
    · next hk =>
      rcases List.mem_cons.mp h with rfl | hmem
      · exact .inl (by rw [hk])
      · exact .inr (.tail _ hmem)
    · split at h
      · exact List.mem_cons.mp h
      · rcases List.mem_cons.mp h with rfl | hmem
        · exact .inr (.head _)
        · exact (ih hmem).imp_right (.tail _)

theorem nodup_keys_put {entries : List (κ × α)} (h : (entries.map Prod.fst).Nodup) (key : κ)
    (value : α) : ((put key value entries).map Prod.fst).Nodup := by
  rw [keys_put]
  split
  · exact h
  · next hnew => exact List.concat_eq_append ▸ h.concat hnew

omit [DecidableEq κ] in
/-- Entries that are set one after the other are all among those given. -/
theorem forall_mem_foldl {set : List (κ × α) → κ × α → List (κ × α)}
    (hset : ∀ acc e, ∀ d ∈ set acc e, d = e ∨ d ∈ acc) {p : κ × α → Prop}
    {entries : List (κ × α)} (h : ∀ e ∈ entries, p e) : ∀ e ∈ entries.foldl set [], p e := by
  refine List.foldlRecOn (motive := fun acc => ∀ e ∈ acc, p e) entries set (List.forall_mem_nil p) ?_
  intro acc hacc e he d hd
  rcases hset acc e d hd with rfl | hold
  · exact h d he
  · exact hacc d hold

theorem forall_mem_ofList {p : κ × α → Prop} {entries : List (κ × α)} (h : ∀ e ∈ entries, p e) :
    ∀ e ∈ ofList entries, p e :=
  forall_mem_foldl (fun _ _ _ hd => mem_put hd) h

theorem forall_mem_sortedOfList [LT κ] [DecidableLT κ] {p : κ × α → Prop}
    {entries : List (κ × α)} (h : ∀ e ∈ entries, p e) : ∀ e ∈ sortedOfList entries, p e :=
  forall_mem_foldl (fun _ _ _ hd => mem_putSorted hd) h

theorem ofList_concat (entries : List (κ × α)) (e : κ × α) :
    ofList (entries ++ [e]) = put e.1 e.2 (ofList entries) := by
  rw [ofList, List.foldl_append, ← ofList, List.foldl_cons, List.foldl_nil]

/-- Each key stands where it was first given. -/
theorem keys_ofList (entries : List (κ × α)) :
    (ofList entries).map Prod.fst = (entries.map Prod.fst).eraseDups := by
  induction entries using List.reverseRecOn with
  | nil => rfl
  | append_singleton entries e ih =>
    rw [ofList_concat, keys_put, ih, List.map_append, List.map_singleton, eraseDups_concat]
    simp only [List.mem_eraseDups]

/-- Each key has the value that it was given last. -/
theorem lookup_ofList (entries : List (κ × α)) (key : κ) :
    (ofList entries).lookup key = entries.reverse.lookup key := by
  induction entries using List.reverseRecOn with
  | nil => rfl
  | append_singleton entries e ih =>
    rw [ofList_concat, lookup_put, ih, List.reverse_concat, List.lookup_cons]
    split
    · next h => rw [h, beq_self_eq_true]
    · next h => rw [beq_false_of_ne h]

theorem ofList_of_nodup {entries : List (κ × α)} (h : (entries.map Prod.fst).Nodup) :
    ofList entries = entries := foldl_put_of_nodup h

theorem notMem_keys_iff {key : κ} {entries : List (κ × α)} :
    key ∉ entries.map Prod.fst ↔ ∀ e ∈ entries, (key != e.1) = true := by
  rw [← List.forall_mem_ne, List.forall_mem_map]
  simp only [bne_iff_ne]

/-- Where no key is repeated, a key is found exactly in the entries of the list. -/
theorem lookup_eq_some_iff_mem {entries : List (κ × α)} (h : (entries.map Prod.fst).Nodup)
    {key : κ} {value : α} : entries.lookup key = some value ↔ (key, value) ∈ entries := by
  constructor
  · intro hfound
    obtain ⟨before, after, rfl, -⟩ := List.lookup_eq_some_iff.mp hfound
    exact List.mem_append_right _ (.head _)
  · intro hmem
    obtain ⟨before, after, rfl⟩ := List.append_of_mem hmem
    rw [List.map_append, List.map_cons] at h
    have hbefore : key ∉ before.map Prod.fst :=
      fun hkey => List.disjoint_of_nodup_append h hkey (.head _)
    exact List.lookup_eq_some_iff.mpr ⟨before, after, rfl, notMem_keys_iff.mp hbefore⟩

/-- What is left of a list are the entries whose key does not come again. -/
theorem mem_ofList_iff {entries : List (κ × α)} {e : κ × α} :
    e ∈ ofList entries ↔
      ∃ before after, entries = before ++ e :: after ∧ e.1 ∉ after.map Prod.fst := by
  have hnodup : ((ofList entries).map Prod.fst).Nodup := by
    rw [keys_ofList]
    exact nodup_eraseDups _
  obtain ⟨key, value⟩ := e
  rw [← lookup_eq_some_iff_mem hnodup, lookup_ofList, List.lookup_eq_some_iff]
  simp only [← notMem_keys_iff]
  constructor
  · intro heq
    obtain ⟨after, before, hsplit, hafter⟩ := heq
    refine ⟨before.reverse, after.reverse, ?_, ?_⟩
    · rw [← List.reverse_inj, hsplit]
      simp
    · rwa [List.map_reverse, List.mem_reverse]
  · intro heq
    obtain ⟨before, after, rfl, hafter⟩ := heq
    refine ⟨after.reverse, before.reverse, ?_, ?_⟩
    · simp
    · rwa [List.map_reverse, List.mem_reverse]

/-- Two lists without repeated keys have the same entries if they are equally long and the entries
of the first are found in the second. -/
theorem perm_iff_lookup {es fs : List (κ × α)} (hes : (es.map Prod.fst).Nodup)
    (hfs : (fs.map Prod.fst).Nodup) :
    es.Perm fs ↔ es.length = fs.length ∧ ∀ e ∈ es, fs.lookup e.1 = some e.2 := by
  simp only [lookup_eq_some_iff_mem hfs]
  constructor
  · intro h
    exact ⟨h.length_eq, fun e he => h.subset he⟩
  · intro h
    obtain ⟨hlength, hsubset⟩ := h
    exact (List.subperm_of_subset hes.of_map hsubset).perm_of_length_le (Nat.le_of_eq hlength.symm)

end Keyed

end ScriptTree
