import WebKit.Ipc.ArgumentSafety

/-!
# Round trips

What `encode` writes, `decode` reads: for every type, after anything that was encoded before, and
whatever the padding holds. Encoders and decoders are composed in the same way (`Codes`).

The length of a string is written as 32 bits. The greatest length stands for the null string, and
longer strings than `createUninitialized` accepts cannot be made on the other side.
-/

namespace WebKit.Ipc

open Parsing OpenAddressing Wtf List BitVec WTFString IntSize

/-! ## Values -/

/-- Lengths of strings are `unsigned`; a `CString` has the limit of its buffer. -/
def KeyTy.WellFormed : (k : KeyTy) → k.Val → Prop
  | .arith _, _ => True
  | .duration _, _ => True
  | .string, v =>
    match (v : WTFString) with
    | .null => True
    | .latin1 cs => cs.length < 2 ^ 32
    | .utf16 cs => cs.length < 2 ^ 32
  | .cstring, v => ∀ data, (v : Option (List Byte)) = some data → data.length < maxCStringLength
  | .pair k k', v => k.WellFormed v.1 ∧ k'.WellFormed v.2

/-- The strings that `createUninitialized` can make. -/
def KeyTy.Short : (k : KeyTy) → k.Val → Prop
  | .arith _, _ => True
  | .duration _, _ => True
  | .string, v =>
    match (v : WTFString) with
    | .null => True
    | .latin1 cs => cs.length ≤ maxStringLength 1
    | .utf16 cs => cs.length ≤ maxStringLength 2
  | .cstring, _ => True
  | .pair k k', v => k.Short v.1 ∧ k'.Short v.2

/-- The value that is decoded: there is one empty string. -/
def WTFString.normalize : WTFString → WTFString
  | .utf16 [] => .latin1 []
  | s => s

def KeyTy.normalize : (k : KeyTy) → k.Val → k.Val
  | .arith _, v => v
  | .duration _, v => v
  | .string, v => WTFString.normalize v
  | .cstring, v => v
  | .pair k k', v => (k.normalize v.1, k'.normalize v.2)

/-- The same value. Tables are the same if they hold the same entries. -/
def Ty.Same : (t : Ty) → t.Val → t.Val → Prop
  | .key k, v, w => k.normalize v = k.normalize w
  | .byteArray, v, w => v = w
  | .optional t, v, w => Option.Rel t.Same v w
  | .pair t u, v, w => t.Same v.1 w.1 ∧ u.Same v.2 w.2
  | .arithmeticVector _, v, w => v = w
  | .vector t, v, w => List.Forall₂ t.Same v w
  | .hashMap k t, v, w =>
    (∀ c e, Stored v.table.table c e → ∃ e', Stored w.table.table c e' ∧
      k.normalize e.1 = k.normalize e'.1 ∧ t.Same e.2 e'.2) ∧
    ∀ c e', Stored w.table.table c e' → ∃ e, Stored v.table.table c e
  | .hashSet k, v, w =>
    (∀ c e, Stored v.table.table c e → ∃ e', Stored w.table.table c e' ∧
      k.normalize e = k.normalize e') ∧
    ∀ c e', Stored w.table.table c e' → ∃ e, Stored v.table.table c e

variable (traits : (k : KeyTy) → HashTraits k.Content)

/-- The values that exist. A table holds its entries, under keys that are not reserved. -/
def wellFormedParts : Parts where
  key := KeyTy.WellFormed
  bytes data := data.length < 2 ^ 64
  vector a v := v.length ≤ (2 ^ 32 - 1) / a.size
  size n := n < 2 ^ 32
  table k _ extract T :=
    HashTable.HoldsExactly (traits k).toKeyTraits extract T.table T.added ∧
      ∀ e ∈ T.added, (traits k).isReserved (extract e) = false ∧
        (traits k).isHashable (extract e) = true

def shortParts : Parts where
  key := KeyTy.Short

/-! ## Composing coders -/

open Parser

/-- What the encoder adds to any bytes, the decoder reads as `v`. -/
structure Codes {α : Type} (enc : ArgumentEncoder → ArgumentEncoder) (dec : Decode α) (v : α) :
    Prop where
  grows : ∀ e, e.bytes <+: (enc e).bytes
  reads : ∀ e, Reads (Between e.bytes (enc e).bytes) dec v

section Codes

variable {α β : Type} {enc : ArgumentEncoder → ArgumentEncoder}

theorem Codes.pure (v : α) : Codes id (pure v : Decode α) v := by
  refine ⟨fun e => prefix_rfl, ?_⟩
  intro e d d' hd
  have heq : d = d' :=
    ArgumentDecoder.ext hd.buffer.symm hd.bytes.symm (hd.start.trans hd.stop.symm)
  rw [heq]
  rfl

variable {dec : Decode α} {v : α}

theorem Codes.bind {dec' : α → Decode β} {w : β} (h : Codes enc dec v)
    (enc' : ArgumentEncoder → ArgumentEncoder) (h' : Codes enc' (dec' v) w) :
    Codes (fun e => enc' (enc e)) (dec >>= dec') w := by
  refine ⟨fun e => (h.grows e).trans (h'.grows _), ?_⟩
  intro e
  exact Reads.bind (fun d d' hd => hd.split (h'.grows (enc e))) (h.reads e)
    (h'.reads (enc e))

theorem Codes.map (h : Codes enc dec v) (g : α → β) :
    Codes enc (dec >>= fun a => Pure.pure (g a)) (g v) :=
  ⟨h.grows, fun e => (h.reads e).map g⟩

theorem Codes.pair {dec' : Decode β} {w : β} (h : Codes enc dec v)
    {enc' : ArgumentEncoder → ArgumentEncoder} (h' : Codes enc' dec' w) :
    Codes (fun e => enc' (enc e)) (decodePair dec dec') (v, w) :=
  h.bind enc' (h'.map _)

variable (junk : Nat → Nat → Byte)

theorem codes_fixedLengthData (data : List Byte) {aln : Nat} (h : IsAlignment aln) :
    Codes (fun e => e.encodeFixedLengthData junk data aln)
      (decodeFixedLengthData data.length aln) data :=
  ⟨fun e => (e.padded junk data h).isPrefix, fun e => (e.padded junk data h).reads⟩

variable (a : Arith)

theorem Arith.length_toBytes (v : a.Val) : (a.toBytes v).length = a.size := by
  cases a with
  | bool => rfl
  | integer s => exact Ipc.length_toBytes _ _

variable (s : IntSize)

theorem IntSize.pow_bytes : 256 ^ s.bytes = 2 ^ (8 * s.bytes) := by
  rw [Nat.pow_mul]

theorem ofNat_toNat_self {w : Nat} (v : BitVec w) : BitVec.ofNat w v.toNat = v := by simp

theorem Arith.ofBytes_toBytes (v : a.Val) : a.ofBytes (a.toBytes v) = v := by
  cases a with
  | bool =>
    cases v with
    | false => rfl
    | true => rfl
  | integer s =>
    show BitVec.ofNat (8 * s.bytes) (Ipc.ofBytes (Ipc.toBytes s.bytes (BitVec.toNat v))) = v
    have hlt : BitVec.toNat v < 256 ^ s.bytes := by
      rw [s.pow_bytes]
      exact BitVec.isLt v
    rw [Ipc.ofBytes_toBytes, Nat.mod_eq_of_lt hlt]
    exact ofNat_toNat_self v

theorem isAlignment_one : IsAlignment 1 := ⟨0, by decide, rfl⟩

theorem Arith.isAlignment : IsAlignment a.size := by
  cases a with
  | bool => exact isAlignment_one
  | integer s => exact s.isAlignment

theorem codes_arith (v : a.Val) : Codes (fun e => e.encodeArith junk a v) (decodeArith a) v := by
  have h := (codes_fixedLengthData junk (a.toBytes v) a.isAlignment).map a.ofBytes
  rw [a.length_toBytes, a.ofBytes_toBytes] at h
  exact h

theorem codes_bool (v : Bool) : Codes (fun e => e.encodeBool junk v) decodeBool v :=
  codes_arith junk .bool v

theorem codes_unsigned {n : Nat} (hn : n < 2 ^ (8 * s.bytes)) :
    Codes (fun e => e.encodeUnsigned junk s n) (decodeUnsigned s) n := by
  have hbts : (Arith.integer s).toBytes (BitVec.ofNat (8 * s.bytes) n) = toBytes s.bytes n := by
    show toBytes s.bytes (BitVec.ofNat (8 * s.bytes) n).toNat = _
    rw [BitVec.toNat_ofNat, Nat.mod_eq_of_lt hn]
  have h := (codes_fixedLengthData junk (toBytes s.bytes n) s.isAlignment).map ofBytes
  rw [Ipc.length_toBytes, Ipc.ofBytes_toBytes, s.pow_bytes, Nat.mod_eq_of_lt hn] at h
  rw [← hbts] at h
  exact h

variable {data : List Byte}

theorem codes_byteArray (h : data.length < 2 ^ 64) :
    Codes (fun e => e.encodeVariableLengthByteArray junk data) decodeVariableLengthByteArray data :=
  (codes_unsigned junk .eight h).bind (fun e => e.encodeFixedLengthData junk data 1)
    (codes_fixedLengthData junk data isAlignment_one)

/-! ## Strings -/

theorem codes_stringText {csz len : Nat} (hsz : IsAlignment csz)
    (hl : data.length = len * csz) (hsht : len ≤ maxStringLength csz)
    (hft : data.length < 2 ^ 64) :
    Codes (fun e => e.encodeFixedLengthData junk data csz) (decodeStringText csz len) data := by
  refine ⟨fun e => (e.padded junk data hsz).isPrefix, fun e => ?_⟩
  refine Reads.peek (fun d d' hd => (e.padded junk data hsz).bufferIsLargeEnoughToContain
    hl (hl ▸ hft) hd) ?_
  rw [if_pos rfl, if_pos hsht, ← hl]
  exact (e.padded junk data hsz).reads

theorem utf16_of_bytes (cs : List (BitVec 16)) :
    (chunks 2 cs.length (cs.flatMap fun c => toBytes 2 c.toNat)).map
      (fun c => BitVec.ofNat 16 (ofBytes c)) = cs := by
  rw [chunks_flatMap (fun c => Ipc.length_toBytes 2 _), map_map]
  refine map_id'' ?_ cs
  intro c
  show BitVec.ofNat 16 (ofBytes (toBytes 2 c.toNat)) = c
  rw [Ipc.ofBytes_toBytes, Nat.mod_eq_of_lt (by omega), ofNat_toNat_self]

theorem codes_string {s : WTFString} (h : KeyTy.Short .string s) :
    Codes (fun e => e.encodeString junk s) decodeString s.normalize := by
  have hmax1 : maxStringLength 1 = 4294967271 := by decide
  have hmax2 : maxStringLength 2 = 2147483635 := by decide
  have hnl : nullLength = 4294967295 := by decide
  cases s with
  | null =>
    have hlt : nullLength < 2 ^ 32 := by decide
    refine (codes_unsigned junk .four hlt).bind id ?_
    exact Codes.pure _
  | latin1 cs =>
    have hl : cs.length ≤ maxStringLength 1 := h
    have hlt : cs.length < 2 ^ 32 := by omega
    refine (codes_unsigned junk .four hlt).bind
      (fun e => (e.encodeBool junk true).encodeFixedLengthData junk cs 1) ?_
    rw [if_neg (by omega)]
    refine (codes_bool junk true).bind (fun e => e.encodeFixedLengthData junk cs 1) ?_
    exact (codes_stringText junk isAlignment_one (mul_one _).symm hl (by omega)).map latin1
  | utf16 cs =>
    have hl : cs.length ≤ maxStringLength 2 := h
    have hlt : cs.length < 2 ^ 32 := by omega
    have hbts := length_flatMap_of_size (fun c : BitVec 16 => Ipc.length_toBytes 2 c.toNat) cs
    refine (codes_unsigned junk .four hlt).bind
      (fun e => (e.encodeBool junk false).encodeFixedLengthData junk
        (cs.flatMap fun c : BitVec 16 => toBytes 2 c.toNat) 2) ?_
    rw [if_neg (by omega)]
    refine (codes_bool junk false).bind (fun e => e.encodeFixedLengthData junk
      (cs.flatMap fun c : BitVec 16 => toBytes 2 c.toNat) 2) ?_
    have htx := codes_stringText junk ⟨1, by decide, rfl⟩ hbts hl (by omega)
    cases cs with
    | nil => exact htx.map fun _ => latin1 []
    | cons c rest =>
      have hm := htx.map fun data => utf16
        ((chunks 2 (c :: rest).length data).map fun c => BitVec.ofNat 16 (ofBytes c))
      rw [utf16_of_bytes] at hm
      exact hm

theorem codes_cstring {data : Option (List Byte)} (h : KeyTy.WellFormed .cstring data) :
    Codes (fun e => e.encodeCString junk data) decodeCString data := by
  have hnl : nullLength = 4294967295 := by decide
  have hmax : maxCStringLength = 4294967279 := by decide
  cases data with
  | none =>
    have hlt : nullLength < 2 ^ 32 := by decide
    refine (codes_unsigned junk .four hlt).bind id ?_
    exact Codes.pure _
  | some data =>
    have hl : data.length < maxCStringLength := h data rfl
    have hlt : data.length < 2 ^ 32 := by omega
    refine (codes_unsigned junk .four hlt).bind (fun e => e.encodeFixedLengthData junk data 1) ?_
    rw [if_neg (by omega)]
    refine ⟨fun e => (e.padded junk data isAlignment_one).isPrefix, fun e => ?_⟩
    have hpad := e.padded junk data isAlignment_one
    refine Reads.peek (fun d d' hd => hpad.bufferIsLargeEnoughToContain
      (mul_one _).symm (by omega) hd) ?_
    rw [if_pos rfl, if_pos hl]
    exact hpad.reads.map some

/-! ## Keys -/

theorem setWidth_signExtend (v : BitVec (8 * s.bytes)) :
    (v.signExtend 64).setWidth (8 * s.bytes) = v := by
  have hle : 8 * s.bytes ≤ 64 := by
    cases s with
    | one | two | four | eight => decide
  refine eq_of_getLsbD_eq fun i hi => ?_
  rw [getLsbD_setWidth, getLsbD_signExtend]
  simp [hi, show i < 64 by omega]

theorem KeyTy.codes (k : KeyTy) {v : k.Val} (hwf : k.WellFormed v) (hsht : k.Short v) :
    Codes (k.encode junk v) k.decode (k.normalize v) := by
  induction k with
  | arith a => exact codes_arith junk a v
  | duration rep =>
    have h := (codes_arith junk (.integer .eight)
      (signExtend 64 (v : BitVec (8 * rep.bytes)))).map
      fun cnt => setWidth (8 * rep.bytes) (cnt : BitVec 64)
    exact Eq.mp (congrArg (Codes _ _) (setWidth_signExtend rep v)) h
  | string => exact codes_string junk hsht
  | cstring => exact codes_cstring junk hwf
  | pair k k' ih ih' =>
    exact (ih hwf.1 hsht.1).pair (ih' hwf.2 hsht.2)

end Codes

/-! ## Containers -/

theorem codes_elements {α β : Type} {enc : α → ArgumentEncoder → ArgumentEncoder} {dec : Decode β}
    {R : α → β → Prop} {l : List α} (h : ∀ x ∈ l, ∃ x', R x x' ∧ Codes (enc x) dec x') :
    ∃ l', List.Forall₂ R l l' ∧
      Codes (fun e => l.foldl (fun e x => enc x e) e) (decodeElements dec l.length) l' := by
  induction l with
  | nil => exact ⟨[], .nil, Codes.pure []⟩
  | cons x rest ih =>
    obtain ⟨x', hx, hcd⟩ := h x mem_cons_self
    obtain ⟨rest', hrest, hcd'⟩ := ih (forall_mem_cons.mp h).2
    refine ⟨x' :: rest', .cons hx hrest, ?_⟩
    exact hcd.bind (fun e => rest.foldl (fun e x => enc x e) e) (hcd'.map _)

theorem exists_of_forall₂ {α β : Type} {R : α → β → Prop} {l : List α} {l' : List β}
    (h : List.Forall₂ R l l') {x : α} (hx : x ∈ l) : ∃ x' ∈ l', R x x' := by
  induction h with
  | nil => cases hx
  | @cons a b rest rest' hab _ ih =>
    rcases mem_cons.mp hx with rfl | hx
    · exact ⟨b, mem_cons_self, hab⟩
    · obtain ⟨x', hx', hR⟩ := ih hx
      exact ⟨x', mem_cons_of_mem _ hx', hR⟩

section Tables

variable {κ ε : Type} {t : HashTable κ ε}

theorem mem_entries {e : ε} : e ∈ entries t ↔ ∃ c, Stored t.table c e := by
  unfold entries Stored
  rw [mem_filterMap]
  constructor
  · rintro ⟨b, hb, heq⟩
    cases b with
    | empty => cases heq
    | deleted => cases heq
    | live c e' => exact ⟨c, Option.some.inj heq ▸ hb⟩
  · rintro ⟨c, hb⟩
    exact ⟨_, hb, rfl⟩

theorem map_entries {extract : ε → κ} (h : ∀ c e, Stored t.table c e → extract e = c) :
    (entries t).map extract = keys t.table := by
  unfold entries OpenAddressing.keys
  rw [map_filterMap]
  refine filterMap_congr fun b hb => ?_
  cases b with
  | empty => rfl
  | deleted => rfl
  | live c e => exact congrArg some (h c e hb)

variable [DecidableEq κ] {tr : HashTraits κ} {extract : ε → κ}

omit [DecidableEq κ] in
open HashTable in
theorem length_entries {added : List ε} (h : HoldsExactly tr.toKeyTraits extract t added) :
    t.size = (entries t).length := by
  have hm := map_entries fun c e hs => ((h.stored c e).mp hs).2
  calc t.size = liveCount t.table := h.inv.keyCount
    _ = (keys t.table).length := (length_keys t.table).symm
    _ = ((entries t).map extract).length := by rw [hm]
    _ = (entries t).length := length_map _

variable {dec : Decode ε} {T : Table κ ε}

open HashTable in
theorem codes_entries {enc : ε → ArgumentEncoder → ArgumentEncoder} {R : ε → ε → Prop}
    (hR : ∀ x x', R x x' → extract x' = extract x) {l : List ε}
    (h : ∀ x ∈ l, ∃ x', R x x' ∧ Codes (enc x) dec x')
    (hky : ∀ x ∈ l, tr.isReserved (extract x) = false ∧ tr.isHashable (extract x) = true)
    (hnd : (l.map extract).Nodup)
    (hgrg : Growing tr.toKeyTraits extract T.table T.added l.length)
    (hnew : ∀ x ∈ l, extract x ∉ T.added.map extract) :
    ∃ T' l', List.Forall₂ R l l' ∧
      HoldsExactly tr.toKeyTraits extract T'.table (T.added ++ l') ∧
      Codes (fun e => l.foldl (fun e x => enc x e) e)
        (decodeEntries tr extract dec l.length T) T' := by
  induction l generalizing T with
  | nil =>
    refine ⟨T, [], .nil, ?_, Codes.pure T⟩
    rw [append_nil]
    exact hgrg.toHoldsExactly
  | cons x rest ih =>
    obtain ⟨x', hx, hcd⟩ := h x mem_cons_self
    obtain ⟨hun, hhs⟩ := hky x mem_cons_self
    have hk := hR x x' hx
    obtain ⟨hfre, hnd⟩ := nodup_cons.mp hnd
    obtain ⟨tbl, ha, hgrw⟩ := hgrg.addAnyKey (e := x') (by rw [hk, hun])
      (by rw [hk, hhs]) (by rw [hk]; exact hnew x mem_cons_self)
    obtain ⟨T', rest', hrest, hhd, hcd'⟩ := ih
      (forall_mem_cons.mp h).2
      (forall_mem_cons.mp hky).2 hnd
      (T := ⟨tbl, T.added ++ [x']⟩) hgrw (by
        intro y hy hm
        rw [map_append, mem_append] at hm
        rcases hm with hm | hm
        · exact hnew y (mem_cons_of_mem _ hy) hm
        · rw [map_singleton, mem_singleton, hk] at hm
          exact hfre (hm ▸ mem_map_of_mem hy))
    refine ⟨T', x' :: rest', .cons hx hrest, ?_, ?_⟩
    · rw [append_cons]
      exact hhd
    · refine hcd.bind (fun e => rest.foldl (fun e x => enc x e) e) ?_
      rw [ha]
      exact hcd'

open HashTable in
theorem codes_table (junk : Nat → Nat → Byte) (enc : ε → ArgumentEncoder → ArgumentEncoder)
    (R : ε → ε → Prop) (hR : ∀ x x', R x x' → extract x' = extract x)
    (hhd : HoldsExactly tr.toKeyTraits extract T.table T.added)
    (hky : ∀ x ∈ T.added, tr.isReserved (extract x) = false ∧ tr.isHashable (extract x) = true)
    (h : ∀ x ∈ T.added, ∃ x', R x x' ∧ Codes (enc x) dec x') :
    ∃ T' : Table κ ε,
      ((∀ c x, Stored T.table.table c x → ∃ x', Stored T'.table.table c x' ∧ R x x') ∧
        ∀ c x', Stored T'.table.table c x' → ∃ x, Stored T.table.table c x) ∧
      Codes (fun e => (entries T.table).foldl (fun e x => enc x e)
          (e.encodeUnsigned junk .eight T.table.size))
        (decodeUnsigned .eight >>= fun size => decodeEntries tr extract dec size {}) T' := by
  have hex : ∀ c x, Stored T.table.table c x → extract x = c := fun c x hs =>
    ((hhd.stored c x).mp hs).2
  have ha : ∀ x ∈ entries T.table, x ∈ T.added := by
    intro x hx
    obtain ⟨c, hc⟩ := mem_entries.mp hx
    exact ((hhd.stored c x).mp hc).1
  have hsz := length_entries hhd
  have hl : (entries T.table).length < 2 ^ 30 := by
    rw [← hsz]
    have hcnt : T.table.keyCount = T.table.size := rfl
    rcases hhd.inv.load with hnil | hld
    · have := hhd.inv.keyCount
      rw [hnil] at this
      rw [← hcnt, this]
      exact Nat.two_pow_pos 30
    · have hne : T.table.table ≠ [] := by
        intro hnil
        unfold tableSize at hld
        rw [hnil] at hld
        cases hld
      obtain ⟨w, hw, hpow⟩ := (hhd.inv.size.resolve_left hne).1
      have := Nat.pow_le_pow_right (n := 2) (by decide) hw
      omega
  obtain ⟨T', l', hall, hhd', hcd⟩ := codes_entries hR
    (fun x hx => h x (ha x hx)) (fun x hx => hky x (ha x hx))
    (by rw [map_entries hex]; exact hhd.inv.unique.nodup_keys)
    (T := {}) (Growing.initial tr.toKeyTraits extract hl) (by simp)
  refine ⟨T', ⟨?_, ?_⟩, ?_⟩
  · intro c x hx
    obtain ⟨x', hx', hR'⟩ := exists_of_forall₂ hall (mem_entries.mpr ⟨c, hx⟩)
    refine ⟨x', (hhd'.stored c x').mpr ⟨hx', ?_⟩, hR'⟩
    rw [hR x x' hR', hex c x hx]
  · intro c x' hx'
    obtain ⟨hm, hc⟩ := (hhd'.stored c x').mp hx'
    obtain ⟨x, hx, hR'⟩ := exists_of_forall₂ hall.flip hm
    refine ⟨x, (hhd.stored c x).mpr ⟨ha x hx, ?_⟩⟩
    rw [← hR x x' hR', hc]
  · have hlt : T.table.size < 2 ^ 64 := by omega
    refine (codes_unsigned junk .eight hlt).bind
      (fun e => (entries T.table).foldl (fun e x => enc x e) e) ?_
    rw [hsz]
    exact hcd

end Tables

theorem codes_arithmeticVector (junk : Nat → Nat → Byte) (a : Arith) {v : List a.Val}
    (h : v.length ≤ (2 ^ 32 - 1) / a.size) :
    Codes (fun e => (e.encodeUnsigned junk .eight v.length).encodeFixedLengthData junk
      (v.flatMap a.toBytes) a.size) (decodeArithmeticVector a) v := by
  have hp : 0 < a.size := by
    obtain ⟨k, _, hk⟩ := a.isAlignment
    rw [hk]
    exact Nat.two_pow_pos k
  have hmul : v.length * a.size ≤ 2 ^ 32 - 1 := (Nat.le_div_iff_mul_le hp).mp h
  have hle : v.length ≤ v.length * a.size := Nat.le_mul_of_pos_right _ hp
  have hlt : v.length < 2 ^ 64 := by omega
  have hbts := length_flatMap_of_size a.length_toBytes v
  refine (codes_unsigned junk .eight hlt).bind
    (fun e => e.encodeFixedLengthData junk (v.flatMap a.toBytes) a.size) ?_
  refine ⟨fun e => (e.padded junk _ a.isAlignment).isPrefix, fun e => ?_⟩
  have hpad := e.padded junk (v.flatMap a.toBytes) a.isAlignment
  refine Reads.peek (fun d d' hd => hpad.bufferIsLargeEnoughToContain hbts (by omega) hd) ?_
  rw [if_pos rfl, if_pos h, ← hbts]
  have hrds := hpad.reads.attempt.map fun data =>
    (chunks a.size v.length (data.getD (List.replicate (v.flatMap a.toBytes).length 0))).map
      a.ofBytes
  have hv : (chunks a.size v.length (v.flatMap a.toBytes)).map a.ofBytes = v := by
    rw [chunks_flatMap a.length_toBytes, map_map]
    exact map_id'' a.ofBytes_toBytes v
  exact Eq.mp (congrArg (Reads _ _) hv) hrds

/-! ## All types -/

theorem WTFString.normalize_normalize (s : WTFString) : s.normalize.normalize = s.normalize := by
  cases s with
  | null | latin1 cs => rfl
  | utf16 cs =>
    cases cs with
    | nil => rfl
    | cons c rest => rfl

theorem WTFString.characters_normalize (s : WTFString) : s.normalize.characters = s.characters := by
  cases s with
  | null | latin1 cs => rfl
  | utf16 cs =>
    cases cs with
    | nil => rfl
    | cons c rest => rfl

theorem KeyTy.normalize_normalize (k : KeyTy) (v : k.Val) :
    k.normalize (k.normalize v) = k.normalize v := by
  induction k with
  | arith a | duration rep | cstring => rfl
  | string => exact WTFString.normalize_normalize v
  | pair k k' ih ih' => exact Prod.ext (ih v.1) (ih' v.2)

theorem KeyTy.content_normalize (k : KeyTy) (v : k.Val) :
    k.content (k.normalize v) = k.content v := by
  induction k with
  | arith a | duration rep | cstring => rfl
  | string => exact characters_normalize v
  | pair k k' ih ih' => exact Prod.ext (ih v.1) (ih' v.2)

theorem KeyTy.content_eq {k : KeyTy} {v w : k.Val} (h : k.normalize v = k.normalize w) :
    k.content w = k.content v := by
  rw [← k.content_normalize w, ← h, k.content_normalize]

variable {traits}

/-- **Every type.** Values without strings that are too long can be read back. -/
theorem Ty.codes (junk : Nat → Nat → Byte) {t : Ty} {v : t.Val}
    (hwf : t.All (wellFormedParts traits) v) (hsht : t.All shortParts v) :
    ∃ v', t.Same v v' ∧ Codes (t.encode junk v) (t.decode traits) v' := by
  induction t with
  | key k => exact ⟨_, (k.normalize_normalize v).symm, k.codes junk hwf hsht⟩
  | byteArray => exact ⟨v, rfl, codes_byteArray junk hwf⟩
  | optional t ih =>
    cases v with
    | none =>
      refine ⟨none, .none, ?_⟩
      refine (codes_bool junk false).bind id ?_
      exact Codes.pure none
    | some x =>
      obtain ⟨x', hx, hcd⟩ := ih (hwf x rfl) (hsht x rfl)
      refine ⟨some x', .some hx, ?_⟩
      refine (codes_bool junk true).bind (t.encode junk x) ?_
      exact hcd.map some
  | pair t u iht ihu =>
    obtain ⟨a, ha, hcd⟩ := iht hwf.1 hsht.1
    obtain ⟨b, hb, hcd'⟩ := ihu hwf.2 hsht.2
    exact ⟨(a, b), ⟨ha, hb⟩, hcd.pair hcd'⟩
  | arithmeticVector a => exact ⟨v, rfl, codes_arithmeticVector junk a hwf⟩
  | vector t ih =>
    obtain ⟨l', hall, hcd⟩ := codes_elements fun x hx => ih (hwf.2 x hx) (hsht.2 x hx)
    refine ⟨l', hall, ?_⟩
    have hlt : List.length v < 2 ^ 64 := hwf.1.trans (by decide)
    exact (codes_unsigned junk .eight hlt).bind
      (fun e => List.foldl (fun e x => t.encode junk x e) e v) hcd
  | hashMap k t ih =>
    refine codes_table junk
      (fun x e => t.encode junk x.2 (k.encode junk x.1 e))
      (fun x x' => k.normalize x.1 = k.normalize x'.1 ∧ t.Same x.2 x'.2)
      (fun x x' h => KeyTy.content_eq h.1) hwf.1.1 hwf.1.2 ?_
    intro x hx
    obtain ⟨y, hy, hcd⟩ := ih (hwf.2 x hx).2 (hsht.2 x hx).2
    exact ⟨(k.normalize x.1, y), ⟨(k.normalize_normalize x.1).symm, hy⟩,
      (k.codes junk (hwf.2 x hx).1 (hsht.2 x hx).1).pair hcd⟩
  | hashSet k =>
    refine codes_table junk (fun x e => k.encode junk x e)
      (fun x x' => k.normalize x = k.normalize x')
      (fun x x' h => KeyTy.content_eq h) hwf.1.1 hwf.1.2 ?_
    intro x hx
    exact ⟨k.normalize x, (k.normalize_normalize x).symm,
      k.codes junk (hwf.2 x hx) (hsht.2 x hx)⟩

/-! ## Strings that are too long -/

variable {n : Nat}

theorem KeyTy.short_of_decoded {k : KeyTy} {v w : k.Val} (h : k.Decoded n w)
    (hsm : k.normalize v = k.normalize w) : k.Short v := by
  induction k with
  | arith a | duration rep | cstring => trivial
  | pair k k' ih ih' =>
    obtain ⟨h₁, h₂⟩ := Prod.mk.inj hsm
    exact ⟨ih h.1 h₁, ih' h.2 h₂⟩
  | string =>
    change WTFString.normalize v = WTFString.normalize w at hsm
    cases v with
    | null => trivial
    | latin1 cs =>
      cases w with
      | null => cases hsm
      | latin1 cs' =>
        obtain rfl := WTFString.latin1.inj hsm
        exact h.2
      | utf16 cs' =>
        cases cs' with
        | nil =>
          obtain rfl := WTFString.latin1.inj hsm
          exact Nat.zero_le _
        | cons c rest => cases hsm
    | utf16 cs =>
      cases cs with
      | nil => exact Nat.zero_le _
      | cons c rest =>
        cases w with
        | null | latin1 cs' => cases hsm
        | utf16 cs' =>
          cases cs' with
          | nil => cases hsm
          | cons c' rest' =>
            rw [WTFString.utf16.inj hsm]
            exact h.2

theorem Ty.short_of_decoded {t : Ty} {v w : t.Val} (hwf : t.All (wellFormedParts traits) v)
    (h : t.All (decodedParts traits n) w) (hsm : t.Same v w) : t.All shortParts v := by
  induction t with
  | key k => exact KeyTy.short_of_decoded h hsm
  | byteArray => trivial
  | optional t ih =>
    intro x hx
    cases hsm with
    | none => cases hx
    | some hxy =>
      cases hx
      exact ih (hwf _ rfl) (h _ rfl) hxy
  | pair t u iht ihu => exact ⟨iht hwf.1 h.1 hsm.1, ihu hwf.2 h.2 hsm.2⟩
  | arithmeticVector a => trivial
  | vector t ih =>
    refine ⟨trivial, fun x hx => ?_⟩
    obtain ⟨y, hy, hxy⟩ := exists_of_forall₂ hsm hx
    exact ih (hwf.2 x hx) (h.2 y hy) hxy
  | hashMap k t ih =>
    refine ⟨trivial, fun x hx => ?_⟩
    obtain ⟨y, hy, hk, hxy⟩ := hsm.1 _ x ((hwf.1.1.stored _ _).mpr ⟨hx, rfl⟩)
    have ha := ((HashTable.stored_addAll h.1 hy).resolve_right not_mem_nil).2.1
    exact ⟨KeyTy.short_of_decoded (h.2 y ha).1 hk, ih (hwf.2 x hx).2 (h.2 y ha).2 hxy⟩
  | hashSet k =>
    refine ⟨trivial, fun x hx => ?_⟩
    obtain ⟨y, hy, hk⟩ := hsm.1 _ x ((hwf.1.1.stored _ _).mpr ⟨hx, rfl⟩)
    have ha := ((HashTable.stored_addAll h.1 hy).resolve_right not_mem_nil).2.1
    exact KeyTy.short_of_decoded (h.2 y ha) hk

/-! ## Sequences of values -/

abbrev Value : Type := (t : Ty) × t.Val

def encodeAll (junk : Nat → Nat → Byte) (vs : List Value) (e : ArgumentEncoder) :
    ArgumentEncoder :=
  vs.foldl (fun e v => v.1.encode junk v.2 e) e

def decodeAll (traits : (k : KeyTy) → HashTraits k.Content) : List Ty → Decode (List Value)
  | [] => pure []
  | t :: rest => do
    let v ← t.decode traits
    let vs ← decodeAll traits rest
    pure (⟨t, v⟩ :: vs)

/-- Two values of one type that are the same. -/
inductive Value.Same : Value → Value → Prop
  | mk {t : Ty} {v w : t.Val} : t.Same v w → Value.Same ⟨t, v⟩ ⟨t, w⟩

/-- Wherever the bytes are put, all values can be read back, up to the end of the buffer. -/
def RoundTrips (traits : (k : KeyTy) → HashTraits k.Content) (junk : Nat → Nat → Byte)
    (vs : List Value) : Prop :=
  ∀ address, ∃ ws d', decodeAll traits (vs.map (·.1))
      (.create (encodeAll junk vs (.create junk)).bytes address) = .ok (some ws, d') ∧
    List.Forall₂ Value.Same vs ws ∧ d'.bufferPos = d'.bufferEnd

theorem codes_all (junk : Nat → Nat → Byte) {vs : List Value}
    (hwf : ∀ v ∈ vs, v.1.All (wellFormedParts traits) v.2)
    (hsht : ∀ v ∈ vs, v.1.All shortParts v.2) :
    ∃ ws, List.Forall₂ Value.Same vs ws ∧
      Codes (encodeAll junk vs) (decodeAll traits (vs.map (·.1))) ws := by
  induction vs with
  | nil => exact ⟨[], .nil, Codes.pure []⟩
  | cons v rest ih =>
    obtain ⟨w, hw, hcd⟩ := Ty.codes junk (hwf v mem_cons_self) (hsht v mem_cons_self)
    obtain ⟨ws, hws, hcd'⟩ := ih (forall_mem_cons.mp hwf).2 (forall_mem_cons.mp hsht).2
    exact ⟨⟨v.1, w⟩ :: ws, .cons (.mk hw) hws, hcd.bind (encodeAll junk rest) (hcd'.map _)⟩

theorem decodeAll_decoded (types : List Ty) :
    SafeDecode n (decodeAll traits types)
      (fun ws => ∀ w ∈ ws, w.1.All (decodedParts traits n) w.2) := by
  induction types with
  | nil => exact .pure (by simp)
  | cons t rest ih =>
    refine (t.safe_decode traits).bind fun v hv => ih.bind fun vs hvs => .pure ?_
    exact forall_mem_cons.mpr ⟨hv, hvs⟩

/-- A value as it can exist. -/
def WellFormedValue (traits : (k : KeyTy) → HashTraits k.Content) : Type :=
  { v : Value // v.1.All (wellFormedParts traits) v.2 }

/-- A string of 8-bit characters with the greatest length, as a vector may be adopted. -/
def longestString : WTFString := .latin1 (List.replicate nullLength 97)

/-- Its length is read as the null string. -/
theorem decode_longestString (junk : Nat → Nat → Byte) (adr : Nat) : ∃ d',
    (Ty.key .string).decode defaultTraits
        (.create (encodeAll junk [⟨.key .string, longestString⟩] (.create junk)).bytes adr) =
      .ok (some .null, d') := by
  have hlt : nullLength < 2 ^ 32 := by decide
  have hl := codes_unsigned junk .four hlt
  -- the length stands at the beginning of the bytes
  let e := (ArgumentEncoder.create junk).encodeUnsigned junk .four nullLength
  have hs : e.bytes <+: (encodeAll junk [⟨.key .string, longestString⟩] (.create junk)).bytes := by
    have hbl := (codes_bool junk true).grows e
    have htx := (codes_fixedLengthData junk (List.replicate nullLength 97) isAlignment_one).grows
      (e.encodeBool junk true)
    have hen : encodeAll junk [⟨.key .string, longestString⟩] (.create junk) =
        (((ArgumentEncoder.create junk).encodeUnsigned junk .four
          (List.replicate nullLength (97 : BitVec 8)).length).encodeBool junk
            true).encodeFixedLengthData junk (List.replicate nullLength 97) 1 := rfl
    rw [hen, length_replicate]
    exact hbl.trans htx
  obtain ⟨d', hd'⟩ := Between.create hs adr
  refine ⟨d', ?_⟩
  show decodeString _ = _
  unfold decodeString
  rw [bind_some (hl.reads (.create junk) _ _ hd')]
  rfl

end WebKit.Ipc
