import WebKit.Ipc.ArgumentCoders

/-!
# Decoding hostile data

What `decode` does with any bytes. It reads inside of the buffer only, a decoder that has failed
stays invalid, and what is returned is no longer than the buffer. Hash tables are the exception: a
key from the data may be one that a table reserves, and such an entry is counted and not held.
-/

namespace WebKit.Ipc

open Parsing OpenAddressing Wtf

/-! ## The parts of a value -/

/-- A predicate for each kind of part that a value can have. -/
structure Parts where
  key : (k : KeyTy) → k.Val → Prop := fun _ _ => True
  bytes : List Byte → Prop := fun _ => True
  vector : (a : Arith) → List a.Val → Prop := fun _ _ => True
  size : Nat → Prop := fun _ => True
  table : (k : KeyTy) → {ε : Type} → (ε → k.Content) → Table k.Content ε → Prop :=
    fun _ _ _ _ => True

/-- Every part of the value has its predicate. -/
def Ty.All (P : Parts) : (t : Ty) → t.Val → Prop
  | .key k, v => P.key k v
  | .byteArray, v => P.bytes v
  | .optional t, v => ∀ x, (v : Option t.Val) = some x → t.All P x
  | .pair t u, v => t.All P v.1 ∧ u.All P v.2
  | .arithmeticVector a, v => P.vector a v
  | .vector t, v =>
    let elements : List t.Val := v
    P.size elements.length ∧ ∀ x ∈ elements, t.All P x
  | .hashMap k t, v =>
    P.table k (fun e => k.content e.1) v ∧ ∀ e ∈ v.added, P.key k e.1 ∧ t.All P e.2
  | .hashSet k, v => P.table k k.content v ∧ ∀ e ∈ v.added, P.key k e

/-- Where one predicate implies another, part by part. -/
structure Parts.Implies (P Q : Parts) : Prop where
  key : ∀ k v, P.key k v → Q.key k v
  bytes : ∀ v, P.bytes v → Q.bytes v
  vector : ∀ a v, P.vector a v → Q.vector a v
  size : ∀ n, P.size n → Q.size n
  table : ∀ k (ε : Type) (extract : ε → k.Content) T, P.table k extract T → Q.table k extract T

variable {t : Ty}

theorem Ty.All.mono {P Q : Parts} (h : P.Implies Q) {v : t.Val} (hv : t.All P v) : t.All Q v := by
  induction t with
  | key k => exact h.key k v hv
  | byteArray => exact h.bytes v hv
  | optional t ih => exact fun x hx => ih (hv x hx)
  | pair t u iht ihu => exact ⟨iht hv.1, ihu hv.2⟩
  | arithmeticVector a => exact h.vector a v hv
  | vector t ih => exact ⟨h.size _ hv.1, fun x hx => ih (hv.2 x hx)⟩
  | hashMap k t ih =>
    exact ⟨h.table k _ _ v hv.1, fun e he => ⟨h.key k _ (hv.2 e he).1, ih (hv.2 e he).2⟩⟩
  | hashSet k => exact ⟨h.table k _ _ v hv.1, fun e he => h.key k _ (hv.2 e he)⟩

def Parts.both (P Q : Parts) : Parts where
  key k v := P.key k v ∧ Q.key k v
  bytes v := P.bytes v ∧ Q.bytes v
  vector a v := P.vector a v ∧ Q.vector a v
  size n := P.size n ∧ Q.size n
  table k _ extract T := P.table k extract T ∧ Q.table k extract T

theorem Ty.all_both {P Q : Parts} {v : t.Val} (hP : t.All P v) (hQ : t.All Q v) :
    t.All (P.both Q) v := by
  induction t with
  | key k | byteArray | arithmeticVector a => exact ⟨hP, hQ⟩
  | optional t ih => exact fun x hx => ih (hP x hx) (hQ x hx)
  | pair t u iht ihu => exact ⟨iht hP.1 hQ.1, ihu hP.2 hQ.2⟩
  | vector t ih => exact ⟨⟨hP.1, hQ.1⟩, fun x hx => ih (hP.2 x hx) (hQ.2 x hx)⟩
  | hashMap k t ih =>
    exact ⟨⟨hP.1, hQ.1⟩, fun e he =>
      ⟨⟨(hP.2 e he).1, (hQ.2 e he).1⟩, ih (hP.2 e he).2 (hQ.2 e he).2⟩⟩
  | hashSet k => exact ⟨⟨hP.1, hQ.1⟩, fun e he => ⟨hP.2 e he, hQ.2 e he⟩⟩

/-! ## What decoding guarantees -/

/-- The strings of a key decoded from `n` bytes fit in the buffer, and are not too long. -/
def KeyTy.Decoded (n : Nat) : (k : KeyTy) → k.Val → Prop
  | .arith _, _ => True
  | .duration _, _ => True
  | .string, v =>
    match (v : WTFString) with
    | .null => True
    | .latin1 cs => cs.length ≤ n ∧ cs.length ≤ maxStringLength 1
    | .utf16 cs => cs.length * 2 ≤ n ∧ cs.length ≤ maxStringLength 2
  | .cstring, v => ∀ data, (v : Option (List Byte)) = some data → data.length ≤ n
  | .pair k k', v => k.Decoded n v.1 ∧ k'.Decoded n v.2

variable (traits : (k : KeyTy) → HashTraits k.Content)

open HashTable

/-- What is decoded from `n` bytes. A table was filled with its entries, each of them new. -/
def decodedParts (n : Nat) : Parts where
  key := KeyTy.Decoded n
  bytes data := data.length ≤ n
  vector a v := v.length * a.size ≤ n
  table k _ extract T := addAll (traits k) extract {} T.added = some T.table

open Parser

/-- Safe decoding from a buffer of `n` bytes. -/
abbrev SafeDecode (n : Nat) {α : Type} (f : Decode α) (Q : α → Prop) : Prop :=
  Safe (fun e => e ≠ .outOfBounds) (fun d : ArgumentDecoder => d.bytes.length = n)
    (fun d => d.isInvalid = true) f Q

section

variable {n : Nat}

theorem ArgumentDecoder.isInvalid_markInvalid (d : ArgumentDecoder) :
    d.markInvalid.isInvalid = true := by
  simp [isInvalid, markInvalid, bufferEnd]

variable {α : Type}

theorem safe_failToDecode (Q : α → Prop) : SafeDecode n (failToDecode : Decode α) Q := by
  refine Safe.fail ?_
  exact fun d hd => ⟨hd, d.isInvalid_markInvalid⟩

theorem safe_crash (Q : α → Prop) : SafeDecode n (fault .crash : Decode α) Q :=
  Safe.fault (by simp)

theorem safe_decodeFixedLengthData (size aln : Nat) :
    SafeDecode n (decodeFixedLengthData size aln) (fun bs => bs.length = size ∧ size ≤ n) := by
  refine .of_result fun d hd => ?_
  unfold decodeFixedLengthData
  by_cases hlrg : alignedBufferIsLargeEnoughToContain (roundUpPointer d.bufferPos aln)
      d.bufferEnd size = true
  · have hle := isLargeEnough_iff.mp hlrg
    have hp := d.le_pos.trans (le_roundUpPointer d.bufferPos aln)
    unfold ArgumentDecoder.bufferEnd at hle
    have haln : alignBufferPosition aln size d = .ok (some (),
        { d with
          bufferPos := roundUpPointer d.bufferPos aln
          le_pos := hp
          pos_le := by omega }) := by
      unfold alignBufferPosition
      rw [dif_pos hlrg]
    rw [bind_some haln]
    unfold readBytes ArgumentDecoder.bufferEnd
    dsimp only
    rw [dif_pos (by omega)]
    refine ⟨hd, ?_, by omega⟩
    rw [List.length_take, List.length_drop]
    omega
  · have haln : alignBufferPosition aln size d = .ok (none, d.markInvalid) := by
      unfold alignBufferPosition
      rw [dif_neg hlrg]
    rw [bind_none haln]
    exact ⟨hd, d.isInvalid_markInvalid⟩

theorem safe_bufferIsLargeEnoughToContain (elementSize numElements : Nat) :
    SafeDecode n (bufferIsLargeEnoughToContain elementSize numElements)
      (fun r => r = true → numElements * elementSize ≤ n) := by
  refine .of_result fun d hd => ?_
  unfold bufferIsLargeEnoughToContain
  split
  · exact ⟨hd, by simp⟩
  refine ⟨hd, fun hlrg => ?_⟩
  have hle := isLargeEnough_iff.mp hlrg
  have hp := d.le_pos.trans (le_roundUpPointer d.bufferPos elementSize)
  unfold ArgumentDecoder.bufferEnd at hle
  omega

theorem safe_decodeArith (a : Arith) : SafeDecode n (decodeArith a) (fun _ => True) :=
  (safe_decodeFixedLengthData _ _).bind fun _ _ => .pure trivial

theorem safe_decodeUnsigned (s : IntSize) : SafeDecode n (decodeUnsigned s) (fun _ => True) :=
  (safe_decodeFixedLengthData _ _).bind fun _ _ => .pure trivial

theorem safe_decodeVariableLengthByteArray :
    SafeDecode n decodeVariableLengthByteArray (fun data => data.length ≤ n) := by
  refine (safe_decodeUnsigned _).bind fun size _ => ?_
  refine (safe_decodeFixedLengthData size 1).mono ?_
  rintro data ⟨hl, hle⟩
  omega

theorem safe_decodeStringText (csz len : Nat) :
    SafeDecode n (decodeStringText csz len)
      (fun data => data.length = len * csz ∧ len * csz ≤ n ∧ len ≤ maxStringLength csz) := by
  refine (safe_bufferIsLargeEnoughToContain csz len).bind fun r _ => ?_
  cases r with
  | false => exact safe_failToDecode _
  | true =>
    show SafeDecode n (if len ≤ maxStringLength csz then _ else _) _
    split
    case isTrue hle =>
      exact (safe_decodeFixedLengthData _ _).mono fun data h => ⟨h.1, h.2, hle⟩
    case isFalse => exact safe_crash _

theorem safe_decodeString : SafeDecode n decodeString (KeyTy.Decoded n .string) := by
  refine (safe_decodeUnsigned _).bind fun len _ => ?_
  split
  case isTrue => exact .pure trivial
  case isFalse =>
    refine (safe_decodeArith _).bind fun is8Bit _ => ?_
    cases is8Bit with
    | true =>
      refine (safe_decodeStringText 1 len).bind fun data h => .pure ?_
      show data.length ≤ n ∧ data.length ≤ maxStringLength 1
      omega
    | false =>
      refine (safe_decodeStringText 2 len).bind fun data h => ?_
      split
      case isTrue => exact .pure ⟨Nat.zero_le _, Nat.zero_le _⟩
      case isFalse =>
        refine .pure ?_
        show (List.map _ _).length * 2 ≤ n ∧ (List.map _ _).length ≤ maxStringLength 2
        rw [List.length_map, length_chunks]
        exact h.2

theorem safe_decodeCString : SafeDecode n decodeCString (KeyTy.Decoded n .cstring) := by
  refine (safe_decodeUnsigned _).bind fun len _ => ?_
  split
  case isTrue => exact .pure (by simp [KeyTy.Decoded])
  case isFalse =>
    refine (safe_bufferIsLargeEnoughToContain 1 len).bind fun r _ => ?_
    cases r with
    | false => exact safe_failToDecode _
    | true =>
      show SafeDecode n (if len < maxCStringLength then _ else _) _
      split
      case isTrue =>
        refine (safe_decodeFixedLengthData len 1).bind fun data h => .pure ?_
        rintro data' ⟨⟩
        omega
      case isFalse => exact safe_crash _

theorem safe_decodeArithmeticVector (a : Arith) :
    SafeDecode n (decodeArithmeticVector a) (fun v => v.length * a.size ≤ n) := by
  refine (safe_decodeUnsigned _).bind fun size _ => ?_
  refine (safe_bufferIsLargeEnoughToContain a.size size).bind fun r hr => ?_
  cases r with
  | false => exact safe_failToDecode _
  | true =>
    show SafeDecode n (if size ≤ (2 ^ 32 - 1) / a.size then _ else _) _
    split
    case isTrue =>
      refine (safe_decodeFixedLengthData _ _).attempt.bind fun data _ => .pure ?_
      rw [List.length_map, length_chunks]
      exact hr rfl
    case isFalse => exact safe_crash _

variable {f : Decode α} {Q : α → Prop}

theorem safe_decodeElements (h : SafeDecode n f Q) (size : Nat) :
    SafeDecode n (decodeElements f size) (fun l => ∀ x ∈ l, Q x) := by
  induction size with
  | zero => exact .pure (by simp)
  | succ size ih =>
    refine h.bind fun x hx => ih.bind fun l hl => .pure ?_
    exact List.forall_mem_cons.mpr ⟨hx, hl⟩

/-- A table is filled with as many entries as were announced, each of them new. -/
theorem safe_decodeEntries {κ ε : Type} [DecidableEq κ] {tr : HashTraits κ} {extract : ε → κ}
    {f : Decode ε} {Q : ε → Prop} (h : SafeDecode n f Q) (size : Nat) {T : Table κ ε}
    (hT : addAll tr extract {} T.added = some T.table) (hQ : ∀ e ∈ T.added, Q e) :
    SafeDecode n (decodeEntries tr extract f size T) (fun T' =>
      addAll tr extract {} T'.added = some T'.table ∧ (∀ e ∈ T'.added, Q e) ∧
        T'.added.length = T.added.length + size) := by
  induction size generalizing T with
  | zero => exact .pure ⟨hT, hQ, rfl⟩
  | succ size ih =>
    refine h.bind fun e he => ?_
    split
    · exact safe_crash _
    next tbl hadd =>
      refine (ih ?_ ?_).mono ?_
      · exact addAll_append.mpr ⟨_, hT, addAll_cons.mpr ⟨tbl, hadd, rfl⟩⟩
      · intro e' he'
        rcases List.mem_append.mp he' with he' | he'
        · exact hQ e' he'
        · exact List.mem_singleton.mp he' ▸ he
      · rintro T' ⟨ha, hQ', hl⟩
        refine ⟨ha, hQ', ?_⟩
        simp at hl
        omega
    · exact safe_failToDecode _

theorem safe_decodePair {β : Type} {g : Decode β} {Q' : β → Prop} (hf : SafeDecode n f Q)
    (hg : SafeDecode n g Q') :
    SafeDecode n (decodePair f g) (fun v => Q v.1 ∧ Q' v.2) :=
  hf.bind fun _ ha => hg.bind fun _ hb => .pure ⟨ha, hb⟩

theorem KeyTy.safe_decode (k : KeyTy) : SafeDecode n k.decode (k.Decoded n) := by
  induction k with
  | arith a => exact safe_decodeArith a
  | duration rep => exact (safe_decodeArith _).bind fun _ _ => .pure trivial
  | string => exact safe_decodeString
  | cstring => exact safe_decodeCString
  | pair k k' ih ih' => exact safe_decodePair ih ih'

/-- **Safe decoding**, for every type. -/
theorem Ty.safe_decode (t : Ty) :
    SafeDecode n (t.decode traits) (t.All (decodedParts traits n)) := by
  induction t with
  | key k => exact k.safe_decode
  | byteArray => exact safe_decodeVariableLengthByteArray
  | optional t ih =>
    refine (safe_decodeArith _).bind fun isEngaged _ => ?_
    cases isEngaged with
    | false => exact .pure nofun
    | true =>
      refine ih.bind fun v hv => .pure ?_
      intro x hx
      exact Option.some.inj hx ▸ hv
  | pair t u iht ihu => exact safe_decodePair iht ihu
  | arithmeticVector a => exact safe_decodeArithmeticVector a
  | vector t ih =>
    refine (safe_decodeUnsigned _).bind fun size _ => ?_
    exact (safe_decodeElements ih size).mono fun l hl => ⟨trivial, hl⟩
  | hashMap k t ih =>
    refine (safe_decodeUnsigned _).bind fun size _ => ?_
    refine (safe_decodeEntries (safe_decodePair k.safe_decode ih) size rfl (by simp)).mono ?_
    exact fun T h => ⟨h.1, h.2.1⟩
  | hashSet k =>
    refine (safe_decodeUnsigned _).bind fun size _ => ?_
    refine (safe_decodeEntries k.safe_decode size rfl (by simp)).mono ?_
    exact fun T h => ⟨h.1, h.2.1⟩

end

/-! ## Invalid decoders -/

/-- Decoding that fails on an invalid decoder. -/
abbrev FailsInvalid {α : Type} (f : Decode α) : Prop :=
  FailsOn (fun d : ArgumentDecoder => d.isInvalid = true) f

theorem failsInvalid_decodeFixedLengthData (size aln : Nat) :
    FailsInvalid (decodeFixedLengthData size aln) := by
  refine FailsOn.bind ?_ _
  intro d hd
  refine ⟨d.markInvalid, ?_, d.isInvalid_markInvalid⟩
  have hp := le_roundUpPointer d.bufferPos aln
  unfold alignBufferPosition
  rw [dif_neg]
  rw [isLargeEnough_iff]
  have hlt : d.bufferEnd < d.bufferPos := of_decide_eq_true hd
  omega

theorem failsInvalid_decodeArith (a : Arith) : FailsInvalid (decodeArith a) :=
  (failsInvalid_decodeFixedLengthData _ _).bind _

theorem failsInvalid_decodeUnsigned (s : IntSize) : FailsInvalid (decodeUnsigned s) :=
  (failsInvalid_decodeFixedLengthData _ _).bind _

theorem KeyTy.failsInvalid_decode (k : KeyTy) : FailsInvalid k.decode := by
  induction k with
  | arith a => exact failsInvalid_decodeArith a
  | duration rep => exact (failsInvalid_decodeArith _).bind _
  | string | cstring => exact (failsInvalid_decodeUnsigned _).bind _
  | pair k k' ih _ => exact ih.bind _

theorem Ty.failsInvalid_decode (t : Ty) : FailsInvalid (t.decode traits) := by
  induction t with
  | key k => exact k.failsInvalid_decode
  | byteArray | arithmeticVector a | vector t _ | hashMap k t _ | hashSet k =>
    exact (failsInvalid_decodeUnsigned _).bind _
  | optional t _ => exact (failsInvalid_decodeArith _).bind _
  | pair t u iht _ => exact iht.bind _

/-! ## Calls of `decode` -/

/-- Strings, byte arrays and arithmetic vectors that are no longer than `n` bytes. -/
def KeyTy.NoLonger (n : Nat) : (k : KeyTy) → k.Val → Prop
  | .arith _, _ => True
  | .duration _, _ => True
  | .string, v =>
    match (v : WTFString) with
    | .null => True
    | .latin1 cs => cs.length ≤ n
    | .utf16 cs => cs.length * 2 ≤ n
  | .cstring, v => ∀ data, (v : Option (List Byte)) = some data → data.length ≤ n
  | .pair k k', v => k.NoLonger n v.1 ∧ k'.NoLonger n v.2

def noLongerParts (n : Nat) : Parts where
  key := KeyTy.NoLonger n
  bytes data := data.length ≤ n
  vector a v := v.length * a.size ≤ n

/-- The tables are well formed and hold exactly the entries of the data. -/
def soundTables : Parts where
  table k _ extract T :=
    HoldsExactly (traits k).toKeyTraits extract T.table T.added

/-- No key of the data is a value that its table reserves. -/
def unreservedTables : Parts where
  table k _ extract T := ∀ e ∈ T.added, (traits k).isReserved (extract e) = false

/-- The number that the data announce is the number of the entries. -/
def Ty.Announced (d : ArgumentDecoder) : (t : Ty) → t.Val → Prop
  | .hashMap _ _, T => ∃ d', decodeUnsigned .eight d = .ok (some T.added.length, d')
  | .hashSet _, T => ∃ d', decodeUnsigned .eight d = .ok (some T.added.length, d')
  | _, _ => True

/-- A call of `decode` that is safe. -/
structure DecodesSafely (t : Ty) (d : ArgumentDecoder) : Prop where
  inBounds : t.decode traits d ≠ .error .outOfBounds
  failed : ∀ d', t.decode traits d = .ok (none, d') → d'.isInvalid = true
  invalid : d.isInvalid = true → ∃ d', t.decode traits d = .ok (none, d') ∧ d'.isInvalid = true
  noLonger : ∀ v d', t.decode traits d = .ok (some v, d') →
    t.All (noLongerParts d.bytes.length) v
  announced : ∀ v d', t.decode traits d = .ok (some v, d') → t.Announced d v
  tables : ∀ v d', t.decode traits d = .ok (some v, d') → t.All (soundTables traits) v

/-- The data have no reserved keys. -/
def NoReservedKeys (t : Ty) (d : ArgumentDecoder) : Prop :=
  ∀ v d', t.decode traits d = .ok (some v, d') → t.All (unreservedTables traits) v

/-- One call after another, each on the decoder that the last one left. -/
def AllCalls (C : Ty → ArgumentDecoder → Prop) : List Ty → ArgumentDecoder → Prop
  | [], _ => True
  | t :: rest, d => C t d ∧ ∀ r d', t.decode traits d = .ok (r, d') → AllCalls C rest d'

variable {traits}

theorem KeyTy.noLonger_of_decoded {n : Nat} {k : KeyTy} {v : k.Val} (h : k.Decoded n v) :
    k.NoLonger n v := by
  induction k with
  | arith a | duration rep => trivial
  | string =>
    cases v with
    | null => trivial
    | latin1 cs | utf16 cs => exact h.1
  | cstring => exact h
  | pair k k' ih ih' => exact ⟨ih h.1, ih' h.2⟩

theorem decodedParts_implies_noLonger (n : Nat) :
    (decodedParts traits n).Implies (noLongerParts n) :=
  ⟨fun _ _ => KeyTy.noLonger_of_decoded, fun _ => id, fun _ _ => id, fun _ => id,
    fun _ _ _ _ _ => trivial⟩

theorem soundTables_iff {n : Nat} {v : t.Val} (h : t.All (decodedParts traits n) v) :
    t.All (soundTables traits) v ↔ t.All (unreservedTables traits) v := by
  constructor
  · intro hsn
    refine (Ty.all_both h hsn).mono ⟨fun _ _ _ => trivial, fun _ _ => trivial,
      fun _ _ _ => trivial, fun _ _ => trivial, ?_⟩
    rintro k ε extract T ⟨hfld, hhd⟩
    exact (holdsExactly_iff hfld).mp hhd
  · intro hky
    refine (Ty.all_both h hky).mono ⟨fun _ _ _ => trivial, fun _ _ => trivial,
      fun _ _ _ => trivial, fun _ _ => trivial, ?_⟩
    rintro k ε extract T ⟨hfld, hun⟩
    exact (holdsExactly_iff hfld).mpr hun

theorem announced_of_decodeEntries {κ ε : Type} [DecidableEq κ] {tr : HashTraits κ}
    {extract : ε → κ} {f : Decode ε} {Q : ε → Prop} {d d' : ArgumentDecoder} {T : Table κ ε}
    (hf : SafeDecode d.bytes.length f Q)
    (h : (decodeUnsigned .eight >>= fun size => decodeEntries tr extract f size {}) d =
      .ok (some T, d')) :
    ∃ d₁, decodeUnsigned .eight d = .ok (some T.added.length, d₁) := by
  cases hsz : decodeUnsigned .eight d with
  | error e =>
    rw [bind_error hsz] at h
    cases h
  | ok r =>
    obtain ⟨_ | size, d₁⟩ := r
    · rw [bind_none hsz] at h
      cases h
    rw [bind_some hsz] at h
    have hd₁ := ((safe_decodeUnsigned .eight).value d size d₁ rfl hsz).1
    have hl := ((safe_decodeEntries hf size rfl (by simp)).value d₁ T d' hd₁ h).2.2.2
    refine ⟨d₁, ?_⟩
    rw [hl]
    simp

theorem Ty.announced (t : Ty) {d d' : ArgumentDecoder} {v : t.Val}
    (h : t.decode traits d = .ok (some v, d')) : t.Announced d v := by
  cases t with
  | hashMap k t =>
    exact announced_of_decodeEntries (safe_decodePair k.safe_decode (t.safe_decode traits)) h
  | hashSet k => exact announced_of_decodeEntries k.safe_decode h
  | _ => trivial

theorem decodesSafely_iff (t : Ty) (d : ArgumentDecoder) :
    DecodesSafely traits t d ↔ NoReservedKeys traits t d := by
  have hsf : SafeDecode d.bytes.length _ _ := t.safe_decode traits
  constructor
  · intro h v d' hv
    exact (soundTables_iff (hsf.value d v d' rfl hv).2).mp (h.tables v d' hv)
  · intro h
    refine ⟨?_, ?_, ?_, ?_, ?_, ?_⟩
    · exact fun he => hsf.faults d _ rfl he rfl
    · exact fun d' hd' => (hsf.nothing d d' rfl hd').2
    · exact t.failsInvalid_decode traits d
    · exact fun v d' hv => (hsf.value d v d' rfl hv).2.mono (decodedParts_implies_noLonger _)
    · exact fun v d' hv => t.announced hv
    · exact fun v d' hv => (soundTables_iff (hsf.value d v d' rfl hv).2).mpr (h v d' hv)

/-- **Hostile data.** For any bytes and any calls of `decode`: all calls are safe if and only if the
tables that are returned have no reserved keys. A table of `2 ^ 30` entries is never returned: its
own arithmetic wraps, which is a crash of the call. -/
theorem hostile_arguments_safe (traits : (k : KeyTy) → HashTraits k.Content) (calls : List Ty)
    (d : ArgumentDecoder) :
    AllCalls traits (DecodesSafely traits) calls d ↔
      AllCalls traits (NoReservedKeys traits) calls d := by
  induction calls generalizing d with
  | nil => exact Iff.rfl
  | cons t rest ih =>
    refine and_congr (decodesSafely_iff t d) ?_
    exact forall_congr' fun r => forall_congr' fun d' => imp_congr_right fun _ => ih d'

/-! ## A reserved key -/

/-- Integers as keys reserve zero and all ones. -/
def integerTraits (w : Nat) : HashTraits (BitVec w) where
  hash key := key.setWidth 32
  minimumTableSize := 8
  minimumTableSize_pow := natTraits.minimumTableSize_pow
  isEmptyValue key := key == 0
  isDeletedValue key := key == BitVec.allOnes w

/-- Strings reserve the null string. Which hash functions they have does not matter here. -/
def defaultTraits : (k : KeyTy) → HashTraits k.Content
  | .arith (.integer s) => integerTraits (8 * s.bytes)
  | .string =>
    { hash := fun key => BitVec.ofNat 32 (Option.elim key 0 List.length)
      minimumTableSize := 8
      minimumTableSize_pow := natTraits.minimumTableSize_pow
      isEmptyValue := fun key => Option.isNone key
      isDeletedValue := fun _ => false
      isHashable := fun key => Option.isSome key }
  | _ =>
    { hash := fun _ => 0
      minimumTableSize := 8
      minimumTableSize_pow := natTraits.minimumTableSize_pow
      isEmptyValue := fun _ => false
      isDeletedValue := fun _ => false }

/-- Data that announce a set with one 64-bit integer. -/
def setOfOne (key : Nat) : ArgumentDecoder :=
  .create (toBytes 8 1 ++ toBytes 8 key) 0

def uint64 : KeyTy := .arith (.integer .eight)

/-- The table after the key zero was added: the counter says one, and the buckets are empty. -/
def tableOfZero : Table (BitVec 64) (BitVec 64) where
  table := { table := List.replicate 8 .empty, keyCount := 1 }
  added := [0]

/-- A set with the key zero is returned. It says that it has one key, and it has none. -/
theorem reserved_key_is_counted : ∃ d',
    (Ty.hashSet uint64).decode defaultTraits (setOfOne 0) = .ok (some tableOfZero, d') ∧
      tableOfZero.table.size = 1 ∧ entries tableOfZero.table = [] ∧
      ¬ DecodesSafely defaultTraits (.hashSet uint64) (setOfOne 0) := by
  refine ⟨_, rfl, rfl, rfl, ?_⟩
  intro h
  have hhold := (h.tables tableOfZero _ rfl).1
  have hstd := (hhold.stored (0 : BitVec 64) (0 : BitVec 64)).mpr ⟨List.mem_cons_self, rfl⟩
  exact not_stored_replicate 8 _ _ hstd

end WebKit.Ipc
