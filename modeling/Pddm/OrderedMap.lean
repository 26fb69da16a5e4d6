import Mathlib

/-!
# Ordered maps

A finite map kept as a list of entries with strictly increasing keys, in the
manner of an ordered associative container: iteration follows the keys, and an
insertion never replaces an entry that is already there.
-/
namespace Pddm

/-- The entries of an ordered map; the order is part of the type. -/
structure OrderedMap (κ ν : Type*) [LinearOrder κ] where
  entries : List (κ × ν)
  sorted : entries.Pairwise (fun a b => a.1 < b.1)

namespace OrderedMap
variable {κ ν : Type*} [LinearOrder κ]

instance [DecidableEq ν] : DecidableEq (OrderedMap κ ν) := fun a b =>
  decidable_of_iff (a.entries = b.entries) (by cases a; cases b; simp)

instance : Membership (κ × ν) (OrderedMap κ ν) := ⟨fun m e => e ∈ m.entries⟩

instance [DecidableEq ν] (e : κ × ν) (m : OrderedMap κ ν) : Decidable (e ∈ m) :=
  inferInstanceAs (Decidable (e ∈ m.entries))

theorem mem_def {m : OrderedMap κ ν} {e : κ × ν} : e ∈ m ↔ e ∈ m.entries := Iff.rfl

def empty : OrderedMap κ ν := ⟨[], List.Pairwise.nil⟩

def size (m : OrderedMap κ ν) : ℕ := m.entries.length

def keys (m : OrderedMap κ ν) : List κ := m.entries.map Prod.fst

def first (m : OrderedMap κ ν) : Option (κ × ν) := m.entries.head?

theorem keys_nodup (m : OrderedMap κ ν) : m.keys.Nodup :=
  List.pairwise_map.mpr (m.sorted.imp ne_of_lt)

@[simp] theorem keys_length (m : OrderedMap κ ν) : m.keys.length = m.size := List.length_map ..

theorem mem_keys {m : OrderedMap κ ν} {k : κ} : k ∈ m.keys ↔ ∃ v, (k, v) ∈ m := by
  simp [keys, mem_def]

theorem entry_unique {m : OrderedMap κ ν} {k : κ} {v w : ν} (hv : (k, v) ∈ m) (hw : (k, w) ∈ m) :
    v = w := by
  have h := List.inj_on_of_nodup_map m.keys_nodup hv hw rfl
  exact (Prod.mk.inj h).2

def insertEntry (k : κ) (v : ν) : List (κ × ν) → List (κ × ν)
  | [] => [(k, v)]
  | e :: es =>
      if k < e.1 then (k, v) :: e :: es
      else if k = e.1 then e :: es
      else e :: insertEntry k v es

theorem mem_insertEntry_key {k : κ} {v : ν} {es : List (κ × ν)} {e : κ × ν}
    (h : e ∈ insertEntry k v es) : e = (k, v) ∨ e ∈ es := by
  induction es with
  | nil => simpa [insertEntry] using h
  | cons a as ih =>
    simp only [insertEntry] at h
    split_ifs at h
    · simpa using h
    · exact Or.inr h
    · rcases List.mem_cons.mp h with rfl | h
      · simp
      · rcases ih h with rfl | h
        · exact Or.inl rfl
        · exact Or.inr (List.mem_cons_of_mem _ h)

theorem insertEntry_sorted (k : κ) (v : ν) {es : List (κ × ν)}
    (hs : es.Pairwise (fun a b => a.1 < b.1)) :
    (insertEntry k v es).Pairwise (fun a b => a.1 < b.1) := by
  induction es with
  | nil => simp [insertEntry]
  | cons a as ih =>
    obtain ⟨ha, hs'⟩ := List.pairwise_cons.mp hs
    simp only [insertEntry]
    split_ifs with hlt heq
    · refine List.pairwise_cons.mpr ⟨?_, hs⟩
      intro b hb
      rcases List.mem_cons.mp hb with rfl | hb
      · exact hlt
      · exact hlt.trans (ha b hb)
    · exact hs
    · refine List.pairwise_cons.mpr ⟨?_, ih hs'⟩
      intro b hb
      rcases mem_insertEntry_key hb with rfl | hb
      · exact lt_of_le_of_ne (not_lt.mp hlt) (Ne.symm heq)
      · exact ha b hb

/-- Insert an entry unless its key is present. -/
def insertNew (m : OrderedMap κ ν) (k : κ) (v : ν) : OrderedMap κ ν :=
  ⟨insertEntry k v m.entries, insertEntry_sorted k v m.sorted⟩

theorem mem_insertEntry {k : κ} {v : ν} {es : List (κ × ν)} {e : κ × ν}
    (hs : es.Pairwise (fun a b => a.1 < b.1)) :
    e ∈ insertEntry k v es ↔ e ∈ es ∨ (e = (k, v) ∧ k ∉ es.map Prod.fst) := by
  induction es with
  | nil => simp [insertEntry]
  | cons a as ih =>
    obtain ⟨ha, hs'⟩ := List.pairwise_cons.mp hs
    simp only [insertEntry]
    split_ifs with hlt heq
    · have hk : k ∉ (a :: as).map Prod.fst := by
        simp only [List.map_cons, List.mem_cons, List.mem_map, not_or, not_exists, not_and]
        exact ⟨hlt.ne, fun b hb he => (hlt.trans (ha b hb)).ne he.symm⟩
      simp only [List.mem_cons (a := e), hk, not_false_eq_true, and_true]
      tauto
    · simp [heq]
    · simp only [List.mem_cons, ih hs', List.map_cons, heq, false_or]
      tauto

theorem mem_insertNew {m : OrderedMap κ ν} {k : κ} {v : ν} {e : κ × ν} :
    e ∈ m.insertNew k v ↔ e ∈ m ∨ (e = (k, v) ∧ k ∉ m.keys) :=
  mem_insertEntry m.sorted

def insertAll (m : OrderedMap κ ν) (es : List (κ × ν)) : OrderedMap κ ν :=
  es.foldl (fun acc e => acc.insertNew e.1 e.2) m

@[simp] theorem insertAll_nil (m : OrderedMap κ ν) : m.insertAll [] = m := rfl

@[simp] theorem insertAll_cons (m : OrderedMap κ ν) (e : κ × ν) (es : List (κ × ν)) :
    m.insertAll (e :: es) = (m.insertNew e.1 e.2).insertAll es := rfl

theorem mem_of_mem_insertAll {m : OrderedMap κ ν} {es : List (κ × ν)} {e : κ × ν}
    (h : e ∈ m.insertAll es) : e ∈ m ∨ (e ∈ es ∧ e.1 ∉ m.keys) := by
  induction es generalizing m with
  | nil => exact Or.inl h
  | cons a as ih =>
    rcases ih h with h | ⟨h, hk⟩
    · rcases mem_insertNew.mp h with h | ⟨rfl, hk⟩
      · exact Or.inl h
      · exact Or.inr ⟨List.mem_cons_self, hk⟩
    · refine Or.inr ⟨List.mem_cons_of_mem _ h, fun hm => hk ?_⟩
      obtain ⟨v, hv⟩ := mem_keys.mp hm
      exact mem_keys.mpr ⟨v, mem_insertNew.mpr (Or.inl hv)⟩

theorem mem_insertAll_of_mem {m : OrderedMap κ ν} {es : List (κ × ν)} {e : κ × ν}
    (h : e ∈ m) : e ∈ m.insertAll es := by
  induction es generalizing m with
  | nil => exact h
  | cons a as ih => exact ih (mem_insertNew.mpr (Or.inl h))

theorem mem_insertAll_of_new {m m' : OrderedMap κ ν} {e : κ × ν}
    (he : e ∈ m') (hk : e.1 ∉ m.keys) : e ∈ m.insertAll m'.entries := by
  obtain ⟨es, hs⟩ := m'
  change e ∈ es at he
  induction es generalizing m with
  | nil => simp at he
  | cons a as ih =>
    obtain ⟨ha, hs'⟩ := List.pairwise_cons.mp hs
    rcases List.mem_cons.mp he with rfl | he
    · have hnew : e ∈ m.insertNew e.1 e.2 := mem_insertNew.mpr (Or.inr ⟨rfl, hk⟩)
      exact mem_insertAll_of_mem (m := m.insertNew e.1 e.2) hnew
    · refine ih ?_ hs' he
      intro hm
      obtain ⟨v, hv⟩ := mem_keys.mp hm
      rcases mem_insertNew.mp hv with hv | ⟨hv, _⟩
      · exact hk (mem_keys.mpr ⟨v, hv⟩)
      · exact (ha e he).ne (Prod.mk.inj hv).1.symm

theorem key_mem_insertAll {m m' : OrderedMap κ ν} {k : κ} (hk : k ∈ m'.keys) :
    k ∈ (m.insertAll m'.entries).keys := by
  obtain ⟨v, hv⟩ := mem_keys.mp hk
  by_cases hm : k ∈ m.keys
  · obtain ⟨w, hw⟩ := mem_keys.mp hm
    exact mem_keys.mpr ⟨w, mem_insertAll_of_mem hw⟩
  · exact mem_keys.mpr ⟨v, mem_insertAll_of_new hv hm⟩

theorem size_le_of_keys_subset {m m' : OrderedMap κ ν} (h : m.keys ⊆ m'.keys) :
    m.size ≤ m'.size := by
  rw [← keys_length, ← keys_length]
  exact (m.keys_nodup.subperm h).length_le

def filter (m : OrderedMap κ ν) (p : κ × ν → Bool) : OrderedMap κ ν :=
  ⟨m.entries.filter p, m.sorted.filter p⟩

@[simp] theorem mem_filter {m : OrderedMap κ ν} {p : κ × ν → Bool} {e : κ × ν} :
    e ∈ m.filter p ↔ e ∈ m ∧ p e = true :=
  List.mem_filter

theorem filter_eq_self {m : OrderedMap κ ν} {p : κ × ν → Bool} (h : ∀ e ∈ m, p e = true) :
    m.filter p = m := by
  cases m
  simp only [filter, mk.injEq]
  exact List.filter_eq_self.mpr h

def count (m : OrderedMap κ ν) (p : κ × ν → Bool) : ℕ := m.entries.countP p

theorem size_le_count_ne (m : OrderedMap κ ν) (k : κ) :
    m.size ≤ m.count (fun e => e.1 ≠ k) + 1 := by
  have hsplit := m.entries.length_eq_countP_add_countP (fun e => decide (e.1 ≠ k))
  have hone : m.entries.countP (fun e => decide (e.1 = k)) ≤ 1 := by
    have h := List.nodup_iff_count_le_one.mp m.keys_nodup k
    rwa [keys, List.count_eq_countP, List.countP_map,
      List.countP_congr (q := fun e => decide (e.1 = k)) (by simp [beq_iff_eq])] at h
  simp only [ne_eq, decide_not, Bool.not_eq_true', decide_eq_false_iff_not, not_not] at hsplit
  simp only [size, count, ne_eq, decide_not]
  omega

end OrderedMap
end Pddm
