import Mathlib.Data.List.GetD
import Mathlib.Data.Fintype.EquivFin

/-!
# Sorting by counting

Elements with small numbers as keys are placed into buckets, in the order of the keys; inside a
bucket they keep their order. `slot` is the place of an element: every place is that of exactly one
element, and the places of a bucket are those of the elements with its key.
-/

namespace CountingSort

open List

variable (keys : List Nat)

/-- Where the bucket of a key starts: the number of elements with smaller keys. -/
def bucketStart (k : Nat) : Nat := keys.countP (· < k)

/-- The place of an element: after the elements of its bucket that come before it. -/
def slot (e : Nat) : Nat :=
  bucketStart keys (keys.getD e 0) + (keys.take e).count (keys.getD e 0)

theorem bucketStart_zero : bucketStart keys 0 = 0 := by
  unfold bucketStart
  rw [countP_eq_zero]
  intro k _
  simp

theorem bucketStart_succ (k : Nat) :
    bucketStart keys (k + 1) = bucketStart keys k + keys.count k := by
  unfold bucketStart
  induction keys with
  | nil => rfl
  | cons a rest ih =>
    rw [countP_cons, countP_cons, count_cons, ih]
    rcases lt_trichotomy a k with hlt | rfl | hgt
    · simp [hlt, Nat.lt_succ_of_lt hlt, ne_of_lt hlt]
      omega
    · simp
      omega
    · simp [Nat.not_lt_of_gt hgt, ne_of_gt hgt, show ¬ a < k + 1 by omega]

theorem bucketStart_mono {j k : Nat} (h : j ≤ k) : bucketStart keys j ≤ bucketStart keys k := by
  induction h with
  | refl => exact le_rfl
  | step _ ih =>
    rw [bucketStart_succ]
    omega

theorem bucketStart_le_length (k : Nat) : bucketStart keys k ≤ keys.length := countP_le_length

/-- The elements of the bucket before an element, and the element itself. -/
theorem count_take_lt {e : Nat} (he : e < keys.length) :
    (keys.take e).count (keys.getD e 0) < keys.count (keys.getD e 0) := by
  rw [getD_eq_getElem _ _ he]
  have hle := (take_sublist (e + 1) keys).count_le keys[e]
  rw [take_succ_eq_append_getElem he, count_append, count_singleton_self] at hle
  omega

theorem slot_in_bucket {e : Nat} (he : e < keys.length) :
    bucketStart keys (keys.getD e 0) ≤ slot keys e ∧
      slot keys e < bucketStart keys (keys.getD e 0) + keys.count (keys.getD e 0) := by
  have hlt := count_take_lt keys he
  unfold slot
  omega

theorem lt_length_of_bucket {i k : Nat} (h : i < bucketStart keys k + keys.count k) :
    i < keys.length := by
  rw [← bucketStart_succ] at h
  exact h.trans_le (bucketStart_le_length keys _)

theorem slot_lt {e : Nat} (he : e < keys.length) : slot keys e < keys.length :=
  lt_length_of_bucket keys (slot_in_bucket keys he).2

/-- Buckets do not overlap: a place in the bucket of a key is that of an element with
this key. -/
theorem key_of_slot {e k : Nat} (he : e < keys.length) (hs : bucketStart keys k ≤ slot keys e)
    (hst : slot keys e < bucketStart keys k + keys.count k) : keys.getD e 0 = k := by
  obtain ⟨hin, hin'⟩ := slot_in_bucket keys he
  rw [← bucketStart_succ] at hst hin'
  rcases lt_trichotomy (keys.getD e 0) k with hlt | heq | hgt
  · have := bucketStart_mono keys (show keys.getD e 0 + 1 ≤ k from hlt)
    omega
  · exact heq
  · have := bucketStart_mono keys (show k + 1 ≤ keys.getD e 0 from hgt)
    omega

theorem slot_inj {e f : Nat} (he : e < keys.length) (hf : f < keys.length)
    (h : slot keys e = slot keys f) : e = f := by
  obtain ⟨hin, hin'⟩ := slot_in_bucket keys he
  have hk : keys.getD f 0 = keys.getD e 0 := key_of_slot keys hf (h ▸ hin) (h ▸ hin')
  -- of two elements of a bucket the later one has more before it
  have hmn : ∀ a b, a < keys.length → a < b → keys.getD b 0 = keys.getD a 0 →
      slot keys a ≠ slot keys b := by
    intro a b ha hab hky heq
    unfold slot at heq
    rw [hky] at heq
    have hc : (keys.take a).count (keys.getD a 0) < (keys.take b).count (keys.getD a 0) := by
      have hlt : a < (keys.take b).length := by
        rw [length_take]
        omega
      have htk := count_take_lt (keys.take b) hlt
      have hg : (keys.take b).getD a 0 = keys.getD a 0 := by
        rw [getD_eq_getElem?_getD, getElem?_take, if_pos hab, ← getD_eq_getElem?_getD]
      rwa [hg, take_take, min_eq_left hab.le] at htk
    omega
  rcases lt_trichotomy e f with hlt | heq | hgt
  · exact absurd h (hmn e f he hlt hk)
  · exact heq
  · exact absurd h.symm (hmn f e hf hgt hk.symm)

theorem exists_slot {i : Nat} (hi : i < keys.length) : ∃ e < keys.length, slot keys e = i := by
  have hinj : Function.Injective
      (fun e : Fin keys.length => (⟨slot keys e, slot_lt keys e.isLt⟩ : Fin keys.length)) := by
    intro a b hab
    exact Fin.ext (slot_inj keys a.isLt b.isLt (Fin.mk.inj_iff.mp hab))
  obtain ⟨e, he⟩ := Finite.injective_iff_surjective.mp hinj ⟨i, hi⟩
  exact ⟨e, e.isLt, Fin.mk.inj_iff.mp he⟩

/-- The places of a bucket are those of the elements with its key. -/
theorem exists_of_mem_bucket {i k : Nat} (hs : bucketStart keys k ≤ i)
    (hst : i < bucketStart keys k + keys.count k) :
    ∃ e < keys.length, slot keys e = i ∧ keys.getD e 0 = k := by
  obtain ⟨e, he, rfl⟩ := exists_slot keys (lt_length_of_bucket keys hst)
  exact ⟨e, he, rfl, key_of_slot keys he hs hst⟩

/-! ## The keys of a list of elements -/

variable {α : Type*} {l : List α} {key : α → Nat} {e f i : Nat}

theorem slot_map_lt (he : e < l.length) : slot (l.map key) e < l.length := by
  have := slot_lt (l.map key) (by rwa [length_map])
  rwa [length_map] at this

theorem slot_map_inj (he : e < l.length) (hf : f < l.length)
    (h : slot (l.map key) e = slot (l.map key) f) : e = f :=
  slot_inj _ (by rwa [length_map]) (by rwa [length_map]) h

theorem exists_slot_map (hi : i < l.length) :
    ∃ (e : Nat) (a : α), l[e]? = some a ∧ slot (l.map key) e = i := by
  obtain ⟨e, he, hsl⟩ := exists_slot (l.map key) (by rwa [length_map])
  rw [length_map] at he
  exact ⟨e, _, getElem?_eq_getElem he, hsl⟩

end CountingSort
