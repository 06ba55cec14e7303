import Mathlib.Data.Set.Card
import Mathlib.Data.Nat.Prime.Basic

/-!
# Open addressing

A table is a list of buckets, each empty, deleted or live. A search walks along the probe sequence
of the key until it meets the key or an empty bucket. The sequences are arbitrary, but their first
steps have to meet every position (`FullCycle`).

The invariant is `Placed`: no empty bucket lies before a live key on its own sequence.
-/

namespace OpenAddressing

open List

inductive Bucket (κ ν : Type) where
  | empty
  | deleted
  | live (key : κ) (value : ν)
  deriving DecidableEq

namespace Bucket

variable {κ ν : Type}

def isLive : Bucket κ ν → Bool
  | live _ _ => true
  | _ => false

def isDeleted : Bucket κ ν → Bool
  | deleted => true
  | _ => false

def isEmpty : Bucket κ ν → Bool
  | empty => true
  | _ => false

end Bucket

section

variable {κ ν : Type}

def liveCount (bs : List (Bucket κ ν)) : Nat := bs.countP Bucket.isLive

def deadCount (bs : List (Bucket κ ν)) : Nat := bs.countP Bucket.isDeleted

/-- The key `k` is stored with the value `v`. -/
def Stored (bs : List (Bucket κ ν)) (k : κ) (v : ν) : Prop := Bucket.live k v ∈ bs

/-- No key occupies two buckets. -/
def Unique (bs : List (Bucket κ ν)) : Prop :=
  ∀ (p q : Nat) (k : κ) (v w : ν),
    bs[p]? = some (.live k v) → bs[q]? = some (.live k w) → p = q

/-- The first steps of `seq` meet every position below `n`, and only those. -/
structure FullCycle (n : Nat) (seq : Nat → Nat) : Prop where
  lt : ∀ j, seq j < n
  meets : ∀ p < n, ∃ j < n, seq j = p

/-- Position `p` is met on `seq` before any empty bucket. -/
def Met (bs : List (Bucket κ ν)) (seq : Nat → Nat) (p : Nat) : Prop :=
  ∃ j, seq j = p ∧ ∀ i < j, bs[seq i]? ≠ some .empty

/-- Every live key is met on its own sequence. -/
def Placed (seq : κ → Nat → Nat) (bs : List (Bucket κ ν)) : Prop :=
  ∀ p k v, bs[p]? = some (.live k v) → Met bs (seq k) p

/-! ## Searching -/

/-- Of the steps below `n` that satisfy `P` there is a first. -/
theorem exists_first {P : Nat → Prop} [DecidablePred P] {n : Nat} (h : ∃ j < n, P j) :
    ∃ j < n, P j ∧ ∀ i < j, ¬ P i := by
  have hex : ∃ j, P j := let ⟨j, _, hj⟩ := h; ⟨j, hj⟩
  obtain ⟨j, hjn, hj⟩ := h
  exact ⟨Nat.find hex, lt_of_le_of_lt (Nat.find_min' hex hj) hjn, Nat.find_spec hex,
    fun i hi => Nat.find_min hex hi⟩

/-- A bucket at which the search for `k` ends. -/
def Ends (k : κ) : Bucket κ ν → Prop
  | .empty => True
  | .deleted => False
  | .live k' _ => k' = k

instance [DecidableEq κ] (k : κ) (b : Bucket κ ν) : Decidable (Ends k b) := by
  cases b <;> unfold Ends <;> infer_instance

variable {bs bs' rest : List (Bucket κ ν)} {seq : κ → Nat → Nat} {k : κ} {p : Nat} {w v : ν}
  {b : Bucket κ ν}

/-- Where the table has an empty bucket, the search for `k` ends within one cycle. -/
theorem exists_end [DecidableEq κ] {seq : Nat → Nat} (hcyc : FullCycle bs.length seq)
    (hemp : .empty ∈ bs) (k : κ) :
    ∃ j < bs.length, ∃ b, bs[seq j]? = some b ∧ Ends k b ∧
      ∀ i < j, ∃ c, bs[seq i]? = some c ∧ ¬ Ends k c := by
  have hg : ∀ i, bs[seq i]? = some (bs.get ⟨seq i, hcyc.lt i⟩) := fun i =>
    getElem?_eq_getElem (hcyc.lt i)
  obtain ⟨p, hp, hb⟩ := getElem_of_mem hemp
  obtain ⟨j, hj, rfl⟩ := hcyc.meets p hp
  have he : Ends k (bs.get ⟨seq j, hcyc.lt j⟩) := by
    show Ends k bs[seq j]
    rw [hb]
    trivial
  obtain ⟨m, hm, hmn, hfst⟩ :=
    exists_first (P := fun i => Ends k (bs.get ⟨seq i, hcyc.lt i⟩)) ⟨j, hj, he⟩
  exact ⟨m, hm, _, hg m, hmn, fun i hi => ⟨_, hg i, hfst i hi⟩⟩

/-- If the search for `k` ends at an empty bucket, `k` is not stored. -/
theorem not_stored_of_end (hpld : Placed seq bs) {j : Nat} (hj : bs[seq k j]? = some .empty)
    (hbef : ∀ i < j, ∃ c, bs[seq k i]? = some c ∧ ¬ Ends k c) (v : ν) : ¬ Stored bs k v := by
  intro hs
  obtain ⟨p, hp, hb⟩ := getElem_of_mem hs
  have hg : bs[p]? = some (.live k v) := by rw [getElem?_eq_getElem hp, hb]
  obtain ⟨m, rfl, hne⟩ := hpld p k v hg
  rcases lt_trichotomy m j with hlt | rfl | hgt
  · obtain ⟨c, hc, hcn⟩ := hbef m hlt
    rw [hg, Option.some_inj] at hc
    subst hc
    exact hcn rfl
  · rw [hg] at hj
    simp at hj
  · exact hne j hgt hj

/-! ## Filling and deleting -/

/-- Filling bucket `p` with `k`, where the search for `k` has met `p`. -/
theorem Placed.fill (h : Placed seq bs) (hp : Met bs (seq k) p) (v : ν) :
    Placed seq (bs.set p (.live k v)) := by
  have hkp : ∀ q : Nat, bs[q]? ≠ some .empty → (bs.set p (.live k v))[q]? ≠ some .empty := by
    intro q hq
    rw [getElem?_set]
    split_ifs <;> simp_all
  intro q k' w hq
  rw [getElem?_set] at hq
  split_ifs at hq with hpq hlt
  · obtain ⟨rfl, rfl⟩ : k = k' ∧ v = w := by simpa using hq
    obtain ⟨j, hj, hne⟩ := hp
    exact ⟨j, hj.trans hpq, fun i hi => hkp _ (hne i hi)⟩
  · obtain ⟨j, hj, hne⟩ := h q k' w hq
    exact ⟨j, hj, fun i hi => hkp _ (hne i hi)⟩

theorem Unique.fill (h : Unique bs) (hk : ∀ v, ¬ Stored bs k v) (v : ν) :
    Unique (bs.set p (.live k v)) := by
  intro q r k' w w' hq hr
  rw [getElem?_set] at hq hr
  split_ifs at hq hr with hpq hlt hpr hlt' hpr
  · exact hpq.symm.trans hpr
  · obtain ⟨rfl, rfl⟩ : k = k' ∧ v = w := by simpa using hq
    exact (hk w' (mem_of_getElem? hr)).elim
  · obtain ⟨rfl, rfl⟩ : k = k' ∧ v = w' := by simpa using hr
    exact (hk w (mem_of_getElem? hq)).elim
  · exact h q r k' w w' hq hr

theorem stored_fill_iff (hp : bs[p]? = some b) (hb : b.isLive = false) (k k' : κ) (v w : ν) :
    Stored (bs.set p (.live k v)) k' w ↔ (k' = k ∧ w = v) ∨ Stored bs k' w := by
  have hlt : p < bs.length := (List.getElem?_eq_some_iff.mp hp).1
  simp only [Stored, mem_iff_getElem?, getElem?_set]
  constructor
  · rintro ⟨q, hq⟩
    split_ifs at hq
    · left
      simpa [eq_comm] using hq
    · exact .inr ⟨q, hq⟩
  · rintro (⟨rfl, rfl⟩ | ⟨q, hq⟩)
    · exact ⟨p, by simp [hlt]⟩
    · refine ⟨q, ?_⟩
      rw [if_neg]
      · exact hq
      · -- a live bucket is not the one that was filled
        rintro rfl
        rw [hp, Option.some_inj] at hq
        subst hq
        exact Bool.false_ne_true hb.symm

theorem liveCount_fill (hp : bs[p]? = some b) (hb : b.isLive = false) (k : κ) (v : ν) :
    liveCount (bs.set p (.live k v)) = liveCount bs + 1 := by
  obtain ⟨hlt, hg⟩ := List.getElem?_eq_some_iff.mp hp
  rw [liveCount, countP_set hlt, hg, hb]
  simp [Bucket.isLive, liveCount]

theorem deadCount_fill (hp : bs[p]? = some b) (k : κ) (v : ν) :
    deadCount (bs.set p (.live k v)) = deadCount bs - (if b.isDeleted then 1 else 0) := by
  obtain ⟨hlt, hg⟩ := List.getElem?_eq_some_iff.mp hp
  rw [deadCount, countP_set hlt, hg]
  simp [Bucket.isDeleted, deadCount]

/-- `bs'` is `bs` with some live buckets turned into deleted ones. -/
def Buries (bs bs' : List (Bucket κ ν)) : Prop :=
  ∀ p : Nat, bs'[p]? = bs[p]? ∨
    ((∃ k v, bs[p]? = some (.live k v)) ∧ bs'[p]? = some .deleted)

theorem Buries.live (h : Buries bs bs') (hp : bs'[p]? = some (.live k v)) :
    bs[p]? = some (.live k v) := by
  rcases h p with he | ⟨-, hd⟩
  · rw [← he, hp]
  · rw [hd] at hp
    simp at hp

theorem Buries.empty (h : Buries bs bs') (hp : bs'[p]? = some .empty) : bs[p]? = some .empty := by
  rcases h p with he | ⟨-, hd⟩
  · rw [← he, hp]
  · rw [hd] at hp
    simp at hp

theorem Placed.bury (h : Placed seq bs) (hb : Buries bs bs') : Placed seq bs' := by
  intro p k v hp
  obtain ⟨j, hj, hne⟩ := h p k v (hb.live hp)
  exact ⟨j, hj, fun i hi he => hne i hi (hb.empty he)⟩

theorem Unique.bury (h : Unique bs) (hb : Buries bs bs') :
    Unique bs' := fun p q k v w hp hq => h p q k v w (hb.live hp) (hb.live hq)

/-! ## The entries one by one -/

theorem stored_cons_live {key : κ} :
    Stored (.live key v :: rest) k w ↔ (k = key ∧ w = v) ∨ Stored rest k w := by
  simp [Stored]

theorem stored_cons_of_not_live (hb : b.isLive = false) :
    Stored (b :: rest) k w ↔ Stored rest k w := by
  cases b with
  | live key v => cases hb
  | empty => simp [Stored]
  | deleted => simp [Stored]

theorem Unique.tail (h : Unique (b :: rest)) :
    Unique rest := fun p q k v w hp hq =>
  Nat.succ_injective (h (p + 1) (q + 1) k v w hp hq)

theorem Unique.head_not_stored {key : κ} (h : Unique (.live key v :: rest)) (w : ν) :
    ¬ Stored rest key w := by
  intro hs
  obtain ⟨q, hq⟩ := mem_iff_getElem?.mp hs
  exact absurd (h 0 (q + 1) key v w rfl hq) (Nat.succ_ne_zero q).symm

/-! ## Counting -/

theorem liveCount_cons_live (k : κ) (v : ν) (bs : List (Bucket κ ν)) :
    liveCount (.live k v :: bs) = liveCount bs + 1 := by
  simp [liveCount, Bucket.isLive, countP_cons]

theorem liveCount_cons_of_not_live (hb : b.isLive = false) (bs : List (Bucket κ ν)) :
    liveCount (b :: bs) = liveCount bs := by
  simp [liveCount, hb]

/-- A table whose live and deleted buckets do not fill it has an empty one. -/
theorem empty_mem_of_lt (h : liveCount bs + deadCount bs < bs.length) : Bucket.empty ∈ bs := by
  induction bs with
  | nil => exact absurd h (lt_irrefl 0)
  | cons b bs ih =>
    cases b with
    | empty => exact mem_cons_self
    | deleted | live k v =>
      refine mem_cons_of_mem _ (ih ?_)
      simp only [liveCount, deadCount, countP_cons, length_cons,
        Bucket.isLive, Bucket.isDeleted] at h ⊢
      simp at h
      omega

/-- The keys in the order of their buckets. -/
def keys (bs : List (Bucket κ ν)) : List κ :=
  bs.filterMap fun b => match b with
    | .live k _ => some k
    | _ => none

theorem length_keys (bs : List (Bucket κ ν)) : (keys bs).length = liveCount bs := by
  induction bs with
  | nil => rfl
  | cons b bs ih => cases b <;> simp_all [keys, liveCount, Bucket.isLive, countP_cons]

theorem mem_keys_iff : k ∈ keys bs ↔ ∃ v, Stored bs k v := by
  induction bs with
  | nil => simp [keys, Stored]
  | cons b bs ih => cases b <;> simp_all [keys, Stored, exists_or]

theorem Unique.nodup_keys (h : Unique bs) : (keys bs).Nodup := by
  induction bs with
  | nil => exact nodup_nil
  | cons b bs ih =>
    have htl : Unique bs := h.tail
    cases b with
    | empty | deleted => exact ih htl
    | live k v =>
      refine nodup_cons.mpr ⟨fun hm => ?_, ih htl⟩
      obtain ⟨w, hw⟩ := mem_keys_iff.mp hm
      exact h.head_not_stored w hw

/-- The live buckets count the keys that are stored. -/
theorem ncard_stored (h : Unique bs) : {k | ∃ v, Stored bs k v}.ncard = liveCount bs := by
  classical
  have hs : {k | ∃ v, Stored bs k v} = ((keys bs).toFinset : Set κ) := by
    ext k
    simp [mem_keys_iff]
  rw [hs, Set.ncard_coe_finset, toFinset_card_of_nodup h.nodup_keys, length_keys]

/-! ## Strides -/

/-- An odd stride runs through all positions of a table whose size is a power of
two. -/
theorem fullCycle_stride (w h k : Nat) (hk : k % 2 = 1) :
    FullCycle (2 ^ w) (fun j => (h + j * k) % 2 ^ w) := by
  have hpos : 0 < 2 ^ w := Nat.two_pow_pos w
  refine ⟨fun j => Nat.mod_lt _ hpos, fun p hp => ?_⟩
  rcases Nat.eq_zero_or_pos w with rfl | hw
  · exact ⟨0, hpos, by simp only [pow_zero, Nat.mod_one]; omega⟩
  have hcop : Nat.Coprime k (2 ^ w) :=
    Nat.Coprime.pow_right w (Nat.coprime_two_right.mpr (Nat.odd_iff.mpr hk))
  -- solve `h + j * k = p` with an inverse `m` of `k`
  obtain ⟨m, -, hm⟩ := Nat.exists_mul_mod_eq_one_of_coprime hcop (Nat.one_lt_two_pow hw.ne')
  have hi : k * m ≡ 1 [MOD 2 ^ w] := by
    rw [Nat.ModEq, hm, Nat.mod_eq_of_lt (Nat.one_lt_two_pow hw.ne')]
  refine ⟨((p + (2 ^ w - h % 2 ^ w)) * m) % 2 ^ w, Nat.mod_lt _ hpos, ?_⟩
  generalize hd : 2 ^ w - h % 2 ^ w = d
  have hmul : (p + d) * m % 2 ^ w * k ≡ p + d [MOD 2 ^ w] := by
    have h1 : (p + d) * m % 2 ^ w * k ≡ (p + d) * m * k [MOD 2 ^ w] :=
      (Nat.mod_modEq _ _).mul_right k
    have h2 : (p + d) * m * k ≡ (p + d) * 1 [MOD 2 ^ w] := by
      rw [mul_assoc, mul_comm m k]
      exact hi.mul_left (p + d)
    rw [mul_one] at h2
    exact h1.trans h2
  have hh : h + d = 2 ^ w * (h / 2 ^ w + 1) := by
    have := Nat.div_add_mod h (2 ^ w)
    rw [mul_add]
    omega
  have hsum : h + (p + d) * m % 2 ^ w * k ≡ p [MOD 2 ^ w] := by
    calc h + (p + d) * m % 2 ^ w * k ≡ h + (p + d) [MOD 2 ^ w] := hmul.add_left h
      _ = p + 2 ^ w * (h / 2 ^ w + 1) := by omega
      _ ≡ p [MOD 2 ^ w] := by simp [Nat.ModEq]
  rw [hsum, Nat.mod_eq_of_lt hp]

/-! ## A table of empty buckets -/

variable (n : Nat)

theorem not_stored_replicate (k : κ) (v : ν) : ¬ Stored (List.replicate n Bucket.empty) k v := by
  intro h
  have := eq_of_mem_replicate h
  simp at this

theorem placed_replicate (seq : κ → Nat → Nat) (n : Nat) :
    Placed (ν := ν) seq (List.replicate n .empty) := fun _ k v hp =>
  (not_stored_replicate n k v (mem_of_getElem? hp)).elim

theorem unique_replicate : Unique (List.replicate n (Bucket.empty : Bucket κ ν)) :=
  fun _ _ k v _ hp _ => (not_stored_replicate n k v (mem_of_getElem? hp)).elim

@[simp] theorem liveCount_replicate :
    liveCount (List.replicate n (Bucket.empty : Bucket κ ν)) = 0 := by
  simp [liveCount, countP_replicate, Bucket.isLive]

@[simp] theorem deadCount_replicate :
    deadCount (List.replicate n (Bucket.empty : Bucket κ ν)) = 0 := by
  simp [deadCount, countP_replicate, Bucket.isDeleted]

end

end OpenAddressing
