import Mathlib.Data.List.Basic

/-!
# Overlaying sorted lists of ranges

A sorted list of disjoint ranges is a partial function that is constant on ranges. `overlay` puts
one over another: where only one of them is defined its value is taken, where both are the values
are combined. The result is cut at every boundary of either list.
-/

namespace RangeOverlay

open List

/-- The numbers from `first` to `last`, with a value. -/
structure Range (α : Type*) where
  first : Nat
  last : Nat
  data : α
deriving DecidableEq

variable {α β : Type*}

def Range.Covers (r : Range α) (c : Nat) : Prop := r.first ≤ c ∧ c ≤ r.last

instance (r : Range α) (c : Nat) : Decidable (r.Covers c) :=
  inferInstanceAs (Decidable (_ ∧ _))

/-- No range is empty, and they come in increasing order without touching. -/
structure Sorted (l : List (Range α)) : Prop where
  nonempty : ∀ r ∈ l, r.first ≤ r.last
  apart : l.Pairwise fun r s => r.last < s.first

def find : List (Range α) → Nat → Option α
  | [], _ => none
  | r :: rest, c => if r.Covers c then some r.data else find rest c

/-! ## Reading a sorted list -/

@[simp] theorem find_nil (c : Nat) : find ([] : List (Range α)) c = none := rfl

theorem find_cons (r : Range α) (rest : List (Range α)) (c : Nat) :
    find (r :: rest) c = if r.Covers c then some r.data else find rest c := rfl

variable {r : Range α} {rest l : List (Range α)} {c : Nat}

theorem find_cons_pos (h : r.Covers c) :
    find (r :: rest) c = some r.data := if_pos h

theorem find_cons_neg (h : ¬ r.Covers c) :
    find (r :: rest) c = find rest c := if_neg h

theorem find_eq_none_iff : find l c = none ↔ ∀ r ∈ l, ¬ r.Covers c := by
  induction l with
  | nil => simp
  | cons r rest ih =>
    rw [find_cons]
    by_cases h : r.Covers c
    · simp [h]
    · simp [h, ih]

theorem mem_of_find {a : α} (h : find l c = some a) : ∃ r ∈ l, r.Covers c ∧ r.data = a := by
  induction l with
  | nil => cases h
  | cons r rest ih =>
    rw [find_cons] at h
    split at h
    case isTrue hc => exact ⟨r, mem_cons_self, hc, Option.some.inj h⟩
    case isFalse =>
      obtain ⟨s, hs, hrest⟩ := ih h
      exact ⟨s, mem_cons_of_mem _ hs, hrest⟩

theorem sorted_nil : Sorted ([] : List (Range α)) := ⟨forall_mem_nil _, List.Pairwise.nil⟩

theorem sorted_cons :
    Sorted (r :: rest) ↔ r.first ≤ r.last ∧ (∀ s ∈ rest, r.last < s.first) ∧ Sorted rest := by
  constructor
  · rintro ⟨hne, hap⟩
    rw [pairwise_cons] at hap
    exact ⟨hne r mem_cons_self, hap.1, (forall_mem_cons.mp hne).2, hap.2⟩
  · rintro ⟨hr, hlt, hne, hap⟩
    refine ⟨?_, pairwise_cons.mpr ⟨hlt, hap⟩⟩
    exact forall_mem_cons.mpr ⟨hr, hne⟩

/-- What lies before the head of a sorted list lies before all of it. -/
theorem Sorted.lt_first (h : Sorted (r :: rest)) (hc : c < r.first) :
    ∀ q ∈ r :: rest, c < q.first := by
  obtain ⟨hne, hap, _⟩ := sorted_cons.mp h
  refine forall_mem_cons.mpr ⟨hc, fun q hq => ?_⟩
  have := hap q hq
  omega

/-- In a sorted list, the value at a number is that of the range it lies in. -/
theorem Sorted.find_eq (h : Sorted l) (hr : r ∈ l) (hc : r.Covers c) : find l c = some r.data := by
  induction l with
  | nil => cases hr
  | cons s rest ih =>
    rw [sorted_cons] at h
    rw [find_cons]
    rcases mem_cons.mp hr with rfl | hr
    · rw [if_pos hc]
    · -- the head ends before the range begins
      have hlt := h.2.1 r hr
      rw [if_neg (fun hs => absurd (Nat.le_trans hc.1 hs.2) (Nat.not_le.mpr hlt))]
      exact ih h.2.2 hr

theorem find_eq_none_of_lt (h : ∀ r ∈ l, c < r.first) : find l c = none := by
  rw [find_eq_none_iff]
  intro r hr hc
  exact absurd hc.1 (Nat.not_le.mpr (h r hr))

theorem Sorted.find_eq_none (h : Sorted (r :: rest)) (hc : c < r.first) :
    find (r :: rest) c = none := find_eq_none_of_lt (h.lt_first hc)

/-- Disjoint ranges below a bound are no more than the bound. -/
theorem Sorted.length_le (h : Sorted l) (sta : Nat) {bound : Nat} (hlo : ∀ r ∈ l, sta ≤ r.first)
    (hhi : ∀ r ∈ l, r.last < bound) (hle : sta ≤ bound) :
    sta + l.length ≤ bound := by
  induction l generalizing sta with
  | nil => simpa using hle
  | cons r rest ih =>
    rw [sorted_cons] at h
    have hr := hlo r mem_cons_self
    have hb := hhi r mem_cons_self
    have := ih h.2.2 (r.last + 1) (fun s hs => h.2.1 s hs) (forall_mem_cons.mp hhi).2 hb
    rw [length_cons]
    omega

/-! ## The overlay -/

section Overlay

variable (convert : β → α) (extend : α → β → α)

/-- The part of the two head ranges before both of them have begun. -/
def leftPart (s : Range α) (o : Range β) : List (Range α) :=
  if s.first < o.first then [⟨s.first, o.first - 1, s.data⟩]
  else if o.first < s.first then [⟨o.first, s.first - 1, convert o.data⟩]
  else []

/-- What is left of a list after its head range has been used up to `last`. -/
def rightOf {γ : Type*} (r : Range γ) (last : Nat) (rest : List (Range γ)) :
    List (Range γ) :=
  if last < r.last then ⟨last + 1, r.last, r.data⟩ :: rest else rest

/-- Walks both lists; where they overlap, the values are combined. -/
def overlay : List (Range α) → List (Range β) → List (Range α)
  | [], others => others.map fun o => ⟨o.first, o.last, convert o.data⟩
  | s :: self, [] => s :: self
  | s :: self, o :: others =>
    if s.last < o.first then s :: overlay self (o :: others)
    else if o.last < s.first then
      ⟨o.first, o.last, convert o.data⟩ :: overlay (s :: self) others
    else
      leftPart convert s o ++
        ⟨max s.first o.first, min s.last o.last, extend s.data o.data⟩ ::
          overlay (rightOf s o.last self) (rightOf o s.last others)
termination_by self others => self.length + others.length
decreasing_by
  · simp only [length_cons]; omega
  · simp only [length_cons]; omega
  · unfold rightOf
    split <;> split <;> simp only [length_cons] <;> omega

/-- The value of the overlay at a number, from the values of the two lists. -/
def combine : Option α → Option β → Option α
  | some a, some b => some (extend a b)
  | some a, none => some a
  | none, some b => some (convert b)
  | none, none => none

/-- Two numbers lie in the same range of the list, or both in none. -/
def SameRange {γ : Type*} (l : List (Range γ)) (c d : Nat) : Prop :=
  ∀ r ∈ l, r.Covers c ↔ r.Covers d

variable {convert extend} (self : List (Range α))

theorem overlay_nil_right : overlay convert extend self [] = self := by
  cases self with
  | nil => rw [overlay]; rfl
  | cons s self => rw [overlay]

variable {s : Range α} {o : Range β} {last c bound d : Nat}

theorem leftPart_of_lt (h : s.first < o.first) :
    leftPart convert s o = [⟨s.first, o.first - 1, s.data⟩] := if_pos h

theorem leftPart_of_gt (h : o.first < s.first) :
    leftPart convert s o = [⟨o.first, s.first - 1, convert o.data⟩] :=
  (if_neg (Nat.lt_asymm h)).trans (if_pos h)

theorem leftPart_of_eq (h : s.first = o.first) : leftPart convert s o = [] :=
  (if_neg (Nat.not_lt.mpr (Nat.le_of_eq h.symm))).trans (if_neg (Nat.not_lt.mpr (Nat.le_of_eq h)))

theorem rightOf_of_lt (h : last < r.last) :
    rightOf r last rest = ⟨last + 1, r.last, r.data⟩ :: rest := if_pos h

theorem rightOf_of_le (h : r.last ≤ last) :
    rightOf r last rest = rest := if_neg (Nat.not_lt.mpr h)

theorem le_first_rightOf (h : ∀ q ∈ rest, bound ≤ q.first)
    (hb : last < r.last → bound ≤ last + 1) : ∀ q ∈ rightOf r last rest, bound ≤ q.first := by
  unfold rightOf
  split
  case isTrue hlt => exact forall_mem_cons.mpr ⟨hb hlt, h⟩
  case isFalse => exact h

/-- Beyond the part used up, nothing changes. -/
theorem find_rightOf (hs : r.first ≤ last + 1) (hc : min last r.last < c) :
    find (rightOf r last rest) c = find (r :: rest) c := by
  unfold rightOf
  split
  case isTrue hlt =>
    have hi : (⟨last + 1, r.last, r.data⟩ : Range α).Covers c ↔ r.Covers c := by
      unfold Range.Covers
      dsimp only
      omega
    rw [find_cons, find_cons]
    by_cases h : r.Covers c
    · rw [if_pos h, if_pos (hi.mpr h)]
    · rw [if_neg h, if_neg (fun h' => h (hi.mp h'))]
  case isFalse hge =>
    rw [find_cons, if_neg]
    rintro ⟨_, hle⟩
    omega

theorem Sorted.rightOf (h : Sorted (r :: rest)) (last : Nat) : Sorted (rightOf r last rest) := by
  unfold RangeOverlay.rightOf
  rw [sorted_cons] at h
  split
  case isTrue hlt => exact sorted_cons.mpr ⟨hlt, h.2.1, h.2.2⟩
  case isFalse => exact h.2.2

/-- The left part ends where the later of the two ranges begins. -/
theorem mem_leftPart (h : r ∈ leftPart convert s o) :
    r.first ≤ r.last ∧ r.last < max s.first o.first ∧
      (∀ c, r.Covers c → (s.first ≤ c ∧ c < o.first ∧ r.data = s.data) ∨
        (o.first ≤ c ∧ c < s.first ∧ r.data = convert o.data)) := by
  unfold leftPart at h
  split at h
  case isTrue hlt =>
    rw [mem_singleton.mp h]
    dsimp only
    refine ⟨by omega, by omega, ?_⟩
    rintro c ⟨h1, h2⟩
    dsimp only at h1 h2
    exact .inl ⟨h1, by omega, rfl⟩
  case isFalse hge =>
    split at h
    case isTrue hlt =>
      rw [mem_singleton.mp h]
      dsimp only
      refine ⟨by omega, by omega, ?_⟩
      rintro c ⟨h1, h2⟩
      dsimp only at h1 h2
      exact .inr ⟨h1, by omega, rfl⟩
    case isFalse => cases h

variable (ots : List (Range β))

/-- Nothing of the overlay lies before both lists. -/
theorem overlay_lower (hs : ∀ s ∈ self, bound ≤ s.first) (ho : ∀ o ∈ ots, bound ≤ o.first) :
    ∀ r ∈ overlay convert extend self ots, bound ≤ r.first := by
  fun_induction overlay convert extend self ots with
  | case1 ots =>
    intro r hr
    obtain ⟨o, hm, rfl⟩ := mem_map.mp hr
    exact ho o hm
  | case2 s self => exact hs
  | case3 s self o ots hlt ih =>
    intro r hr
    rcases mem_cons.mp hr with rfl | hr
    · exact hs _ mem_cons_self
    · exact ih (forall_mem_cons.mp hs).2 ho r hr
  | case4 s self o ots hge hlt ih =>
    intro r hr
    rcases mem_cons.mp hr with rfl | hr
    · exact ho _ mem_cons_self
    · exact ih hs (forall_mem_cons.mp ho).2 r hr
  | case5 s self o ots hge hge' ih =>
    have hsf := hs s mem_cons_self
    have hof := ho o mem_cons_self
    intro r hr
    rcases mem_append.mp hr with hr | hr
    · obtain ⟨hle, -, hpr⟩ := mem_leftPart hr
      have := hpr r.first ⟨Nat.le_refl _, hle⟩
      omega
    · rcases mem_cons.mp hr with rfl | hr
      · exact Nat.le_trans hsf (Nat.le_max_left _ _)
      exact ih (le_first_rightOf (forall_mem_cons.mp hs).2 (by omega))
        (le_first_rightOf (forall_mem_cons.mp ho).2 (by omega)) r hr

theorem find_append (l l' : List (Range α)) (c : Nat) :
    find (l ++ l') c = (find l c).or (find l' c) := by
  induction l with
  | nil => rfl
  | cons r rest ih =>
    rw [cons_append, find_cons, find_cons, ih]
    split <;> rfl

theorem sorted_leftPart (s : Range α) (o : Range β) : Sorted (leftPart convert s o) := by
  constructor
  · intro r hr
    exact (mem_leftPart hr).1
  · unfold leftPart
    split
    · exact pairwise_singleton _ _
    · split
      · exact pairwise_singleton _ _
      · exact List.Pairwise.nil

theorem Sorted.append {l l' : List (Range α)} (h : Sorted l) (h' : Sorted l')
    (hl : ∀ r ∈ l, r.last < bound) (hl' : ∀ r ∈ l', bound ≤ r.first) :
    Sorted (l ++ l') := by
  constructor
  · exact forall_mem_append.mpr ⟨h.nonempty, h'.nonempty⟩
  · refine pairwise_append.mpr ⟨h.apart, h'.apart, ?_⟩
    intro r hr q hq
    exact Nat.lt_of_lt_of_le (hl r hr) (hl' q hq)

/-- What is left of either list lies beyond the common part. -/
theorem rightOf_lower {n : Nat} (h : Sorted (r :: rest)) (hn : n = min r.last last) :
    ∀ q ∈ rightOf r last rest, n + 1 ≤ q.first := by
  refine le_first_rightOf (fun q hq => ?_) (by omega)
  have := (sorted_cons.mp h).2.1 q hq
  omega

/-- **The overlay is sorted.** -/
theorem overlay_sorted
    (hs : Sorted self) (ho : Sorted ots) : Sorted (overlay convert extend self ots) := by
  fun_induction overlay convert extend self ots with
  | case1 ots =>
    constructor
    · intro r hr
      obtain ⟨o, hm, rfl⟩ := mem_map.mp hr
      exact ho.nonempty o hm
    · exact pairwise_map.mpr ho.apart
  | case2 s self => exact hs
  | case3 s self o ots hlt ih =>
    obtain ⟨hne, hap, hsf⟩ := sorted_cons.mp hs
    exact sorted_cons.mpr ⟨hne, overlay_lower _ _ hap (ho.lt_first hlt), ih hsf ho⟩
  | case4 s self o ots hge hlt ih =>
    obtain ⟨hne, hap, hots⟩ := sorted_cons.mp ho
    exact sorted_cons.mpr ⟨hne, overlay_lower _ _ (hs.lt_first hlt) hap, ih hs hots⟩
  | case5 s self o ots hge hge' ih =>
    have hne := (sorted_cons.mp hs).1
    have hne' := (sorted_cons.mp ho).1
    have hlow : ∀ r ∈ overlay convert extend (rightOf s o.last self) (rightOf o s.last ots),
        min s.last o.last + 1 ≤ r.first :=
      overlay_lower _ _ (rightOf_lower hs rfl) (rightOf_lower ho (Nat.min_comm _ _))
    have htl : Sorted (⟨max s.first o.first, min s.last o.last, extend s.data o.data⟩ ::
        overlay convert extend (rightOf s o.last self) (rightOf o s.last ots)) := by
      refine sorted_cons.mpr ⟨?_, hlow, ih (hs.rightOf _) (ho.rightOf _)⟩
      show max s.first o.first ≤ min s.last o.last
      omega
    refine (sorted_leftPart s o).append htl (fun r hr => (mem_leftPart hr).2.1) ?_
    intro r hr
    rcases mem_cons.mp hr with rfl | hr
    · exact Nat.le_refl _
    · have := hlow r hr
      omega

@[simp] theorem combine_none_left (b : Option β) :
    combine convert extend none b = b.map convert := by
  cases b <;> rfl

@[simp] theorem combine_none_right (a : Option α) :
    combine convert extend a (none : Option β) = a := by
  cases a <;> rfl

theorem combine_eq_none_iff {a : Option α} {b : Option β} :
    combine convert extend a b = none ↔ a = none ∧ b = none := by
  cases a <;> cases b <;> simp [combine]

/-- Before the common part only one of the lists is defined, or none. -/
theorem find_leftPart {self : List (Range α)} {ots : List (Range β)} (hs : Sorted (s :: self))
    (ho : Sorted (o :: ots)) (hso : ¬ s.last < o.first) (hos : ¬ o.last < s.first)
    (hc : c < max s.first o.first) :
    find (leftPart convert s o) c =
      combine convert extend (find (s :: self) c) (find (o :: ots) c) := by
  unfold leftPart
  by_cases h1 : s.first < o.first
  · rw [if_pos h1, ho.find_eq_none (by omega), combine_none_right]
    by_cases hsc : s.first ≤ c
    · rw [find_cons_pos (r := s) ⟨hsc, by omega⟩]
      exact find_cons_pos ⟨hsc, by dsimp only; omega⟩
    · rw [hs.find_eq_none (by omega)]
      exact find_cons_neg (fun h => hsc h.1)
  · rw [if_neg h1, hs.find_eq_none (by omega), combine_none_left]
    by_cases hoc : o.first ≤ c
    · rw [if_pos (by omega), find_cons_pos (r := o) ⟨hoc, by omega⟩]
      exact find_cons_pos ⟨hoc, by dsimp only; omega⟩
    · rw [ho.find_eq_none (by omega)]
      split
      · exact find_cons_neg (fun h => hoc h.1)
      · rfl

/-- **The value of the overlay** at a number is the combination of the values of
the two lists. -/
theorem find_overlay (hs : Sorted self) (ho : Sorted ots) (c : Nat) :
    find (overlay convert extend self ots) c =
      combine convert extend (find self c) (find ots c) := by
  fun_induction overlay convert extend self ots with
  | case1 ots =>
    clear ho
    induction ots with
    | nil => rfl
    | cons o ots ih =>
      by_cases h : o.Covers c
      · rw [find_cons_pos h]
        exact find_cons_pos h
      · rw [find_cons_neg h, ← ih]
        exact find_cons_neg h
  | case2 s self => rw [find_nil, combine_none_right]
  | case3 s self o ots hlt ih =>
    obtain ⟨hne, hap, hsf⟩ := sorted_cons.mp hs
    by_cases hc : s.Covers c
    · -- the other list begins later
      rw [find_cons_pos hc, find_cons_pos hc,
        ho.find_eq_none (Nat.lt_of_le_of_lt hc.2 hlt), combine_none_right]
    · rw [find_cons_neg hc, find_cons_neg hc, ih hsf ho]
  | case4 s self o ots hge hlt ih =>
    obtain ⟨hne, hap, hots⟩ := sorted_cons.mp ho
    by_cases hc : o.Covers c
    · rw [find_cons_pos hc, hs.find_eq_none (Nat.lt_of_le_of_lt hc.2 hlt), combine_none_left]
      exact find_cons_pos hc
    · rw [find_cons_neg hc, ← ih hs hots]
      exact find_cons_neg hc
  | case5 s self o ots hge hge' ih =>
    have hne := (sorted_cons.mp hs).1
    have hne' := (sorted_cons.mp ho).1
    have hlf : max s.first o.first ≤ c → find (leftPart convert s o) c = none := by
      intro hc
      rw [find_eq_none_iff]
      intro r hr hcov
      have h1 := (mem_leftPart hr).2.1
      have h2 := hcov.2
      omega
    rw [find_append]
    rcases Nat.lt_or_ge c (max s.first o.first) with hc | hc
    · -- before the common part
      have hsf : find (rightOf s o.last self) c = none :=
        find_eq_none_of_lt fun q hq => by
          have := rightOf_lower hs rfl q hq
          omega
      have hots : find (rightOf o s.last ots) c = none :=
        find_eq_none_of_lt fun q hq => by
          have := rightOf_lower ho rfl q hq
          omega
      rw [find_cons_neg (fun h => absurd h.1 (Nat.not_le.mpr hc)),
        ih (hs.rightOf _) (ho.rightOf _), hsf, hots, combine_none_right, Option.or_none]
      exact find_leftPart hs ho hge hge' hc
    · rw [hlf hc, Option.none_or]
      rcases Nat.lt_or_ge (min s.last o.last) c with hc' | hc'
      · -- beyond it
        rw [find_cons_neg (fun h => absurd h.2 (Nat.not_le.mpr hc')),
          ih (hs.rightOf _) (ho.rightOf _), find_rightOf (by omega) (by omega),
          find_rightOf (by omega) (by omega)]
      · -- in it
        rw [find_cons_pos (r := s) ⟨by omega, by omega⟩,
          find_cons_pos (r := o) ⟨by omega, by omega⟩]
        exact find_cons_pos ⟨hc, hc'⟩

theorem sameRange_cons :
    SameRange (r :: rest) c d ↔ (r.Covers c ↔ r.Covers d) ∧ SameRange rest c d := by
  unfold SameRange
  simp

/-- Numbers before all ranges of a list lie in the same range: none. -/
theorem sameRange_of_lt {n : Nat} (h : ∀ r ∈ l, n < r.first) (hc : c ≤ n) (hd : d ≤ n) :
    SameRange l c d := by
  intro r hr
  have := h r hr
  unfold Range.Covers
  omega

/-- Numbers of the head range lie in no range of the rest. -/
theorem Sorted.sameRange_tail (h : Sorted (r :: rest))
    (hc : c ≤ r.last) (hd : d ≤ r.last) : SameRange rest c d :=
  sameRange_of_lt (sorted_cons.mp h).2.1 hc hd

/-- Numbers of one range of a sorted list lie in the same range. -/
theorem Sorted.sameRange (h : Sorted l) (hr : r ∈ l)
    (hc : r.Covers c) (hd : r.Covers d) : SameRange l c d := by
  induction l with
  | nil => cases hr
  | cons s rest ih =>
    rw [sameRange_cons]
    rcases mem_cons.mp hr with rfl | hr
    · exact ⟨⟨fun _ => hd, fun _ => hc⟩, h.sameRange_tail hc.2 hd.2⟩
    obtain ⟨_, hap, hrest⟩ := sorted_cons.mp h
    have hlt := hap r hr
    refine ⟨?_, ih hrest hr⟩
    have h1 := hc.1
    have h2 := hd.1
    unfold Range.Covers
    omega

/-- Beyond the part used up, ranges do not change. -/
theorem sameRange_of_rightOf (hs : r.first ≤ last + 1)
    (hc : min last r.last < c) (hd : min last r.last < d)
    (h : SameRange (rightOf r last rest) c d) :
    SameRange (r :: rest) c d := by
  unfold rightOf at h
  split at h
  case isTrue hlt =>
    rw [sameRange_cons] at h ⊢
    refine ⟨?_, h.2⟩
    have hi := h.1
    unfold Range.Covers at hi ⊢
    dsimp only at hi
    omega
  case isFalse hge =>
    refine sameRange_cons.mpr ⟨?_, h⟩
    unfold Range.Covers
    omega

/-- **The overlay is cut at every boundary**: inside one of its ranges, neither
list changes. -/
theorem overlay_sameRange (hs : Sorted self) (ho : Sorted ots) :
    ∀ r ∈ overlay convert extend self ots, ∀ c d, r.Covers c → r.Covers d →
      SameRange self c d ∧ SameRange ots c d := by
  fun_induction overlay convert extend self ots with
  | case1 ots =>
    intro r hr c d hc hd
    obtain ⟨o, hm, rfl⟩ := mem_map.mp hr
    exact ⟨forall_mem_nil _, ho.sameRange hm hc hd⟩
  | case2 s self =>
    intro r hr c d hc hd
    exact ⟨hs.sameRange hr hc hd, forall_mem_nil _⟩
  | case3 s self o ots hlt ih =>
    obtain ⟨hne, hap, hsf⟩ := sorted_cons.mp hs
    have hbef := ho.lt_first hlt
    intro r hr c d hc hd
    rcases mem_cons.mp hr with rfl | hr
    · exact ⟨hs.sameRange mem_cons_self hc hd, sameRange_of_lt hbef hc.2 hd.2⟩
    -- the rest of the overlay lies beyond the head
    have hlow := overlay_lower self (o :: ots) hap hbef r hr
    obtain ⟨h1, h2⟩ := ih hsf ho r hr c d hc hd
    refine ⟨sameRange_cons.mpr ⟨?_, h1⟩, h2⟩
    have h3 := hc.1
    have h4 := hd.1
    unfold Range.Covers
    omega
  | case4 s self o ots hge hlt ih =>
    obtain ⟨hne, hap, hots⟩ := sorted_cons.mp ho
    have hbef := hs.lt_first hlt
    intro r hr c d hc hd
    rcases mem_cons.mp hr with rfl | hr
    · exact ⟨sameRange_of_lt hbef hc.2 hd.2, ho.sameRange mem_cons_self hc hd⟩
    have hlow := overlay_lower (s :: self) ots hbef hap r hr
    obtain ⟨h1, h2⟩ := ih hs hots r hr c d hc hd
    refine ⟨h1, sameRange_cons.mpr ⟨?_, h2⟩⟩
    have h3 := hc.1
    have h4 := hd.1
    unfold Range.Covers
    omega
  | case5 s self o ots hge hge' ih =>
    have hne := (sorted_cons.mp hs).1
    have hne' := (sorted_cons.mp ho).1
    intro r hr c d hc hd
    rcases mem_append.mp hr with hr | hr
    · -- the left part: up to the beginning of the later of the two heads
      obtain ⟨_, _, hpr⟩ := mem_leftPart hr
      have h1 := hpr c hc
      have h2 := hpr d hd
      refine ⟨sameRange_cons.mpr ⟨?_, hs.sameRange_tail (by omega) (by omega)⟩,
        sameRange_cons.mpr ⟨?_, ho.sameRange_tail (by omega) (by omega)⟩⟩
      · unfold Range.Covers
        omega
      · unfold Range.Covers
        omega
    · rcases mem_cons.mp hr with rfl | hr
      · -- the common part lies in both heads
        obtain ⟨hc1, hc2⟩ := hc
        obtain ⟨hd1, hd2⟩ := hd
        dsimp only at hc1 hc2 hd1 hd2
        exact ⟨hs.sameRange mem_cons_self ⟨by omega, by omega⟩ ⟨by omega, by omega⟩,
          ho.sameRange mem_cons_self ⟨by omega, by omega⟩ ⟨by omega, by omega⟩⟩
      · have hlow := overlay_lower (rightOf s o.last self) (rightOf o s.last ots)
          (rightOf_lower hs rfl) (rightOf_lower ho (Nat.min_comm _ _)) r hr
        obtain ⟨h1, h2⟩ := ih (hs.rightOf _) (ho.rightOf _) r hr c d hc hd
        have h3 := hc.1
        have h4 := hd.1
        exact ⟨sameRange_of_rightOf (by omega) (by omega) (by omega) h1,
          sameRange_of_rightOf (by omega) (by omega) (by omega) h2⟩

/-- The overlay stays below a bound that both lists stay below. -/
theorem overlay_upper
    (hs : ∀ s ∈ self, s.last < bound) (ho : ∀ o ∈ ots, o.last < bound) (hsrt : Sorted self)
    (hos : Sorted ots) :
    ∀ r ∈ overlay convert extend self ots, r.last < bound := by
  intro r hr
  have hout : Sorted (overlay convert extend self ots) := overlay_sorted self ots hsrt hos
  -- the last number of the range has a value, so one of the lists has one there
  have hcov : r.Covers r.last := ⟨hout.nonempty r hr, Nat.le_refl _⟩
  have hv := hout.find_eq hr hcov
  rw [find_overlay self ots hsrt hos] at hv
  cases h1 : find self r.last with
  | some a =>
    obtain ⟨s, hm, hc, _⟩ := mem_of_find h1
    exact Nat.lt_of_le_of_lt hc.2 (hs s hm)
  | none =>
    cases h2 : find ots r.last with
    | some b =>
      obtain ⟨o, hm, hc, _⟩ := mem_of_find h2
      exact Nat.lt_of_le_of_lt hc.2 (ho o hm)
    | none =>
      rw [h1, h2] at hv
      cases hv

end Overlay

end RangeOverlay
