import EntityCore.CheckedWire
import EntityCore.HashWire
import EntityCore.WireRoundTrip

/-! The wire decoders are total. A head lies within the data and an item beyond its start,
so the bytes that are left bound the depth of the walk and every range it hands out; the
two helpers that take a count for a capacity are the exception. -/
namespace EntityCore
variable {stop offset start c depth : ℕ} {data : Bytes}

namespace Wire

open Ecf ByteCode Outcome Aborting

/-! Ranges. -/

theorem parseCborHead_range {major : UInt8} {value size : ℕ}
    (h : parseCborHead data offset = .ok (major,value,size)) :
    0 < size ∧ offset+size ≤ data.length := by
  unfold parseCborHead at h
  split at h
  · cases h
  · rename_i first hfirst
    have hlt : offset < data.length := (List.getElem?_eq_some_iff.mp hfirst).1
    simp only at h
    split_ifs at h
    all_goals
      simp only [Except.ok.injEq,Prod.mk.injEq] at h
      omega

theorem payloadEnd_range {what : String} {len : ℕ}
    (h : payloadEnd data what start len = .ok stop) : stop = start+len ∧ stop ≤ data.length := by
  unfold payloadEnd at h
  split_ifs at h
  cases h
  exact ⟨rfl,by omega⟩

theorem repeatEnd_range {step : ℕ → Except WireError ℕ}
    (hstep : ∀ c stop, step c = .ok stop → c < stop ∧ stop ≤ data.length) (n : ℕ)
    (hc : c ≤ data.length) (h : repeatEnd step n c = .ok stop) : c ≤ stop ∧ stop ≤ data.length := by
  induction n generalizing c with
  | zero =>
    cases h
    exact ⟨le_rfl,hc⟩
  | succ n ih =>
    obtain ⟨next,hnext,h⟩ := (bind_ok _ _ _).mp h
    have hrange := hstep c next hnext
    have hrest := ih hrange.2 h
    exact ⟨by omega,hrest.2⟩

theorem itemEnd_range
    (h : itemEnd data depth offset = .ok stop) : offset < stop ∧ stop ≤ data.length := by
  induction depth generalizing offset stop with
  | zero => cases h
  | succ depth ih =>
    obtain ⟨⟨major,value,size⟩,hhead,h⟩ := (bind_ok _ _ _).mp h
    have ⟨hsize,hbound⟩ := parseCborHead_range hhead
    simp only at h
    split_ifs at h
    · cases h
      exact ⟨by omega,hbound⟩
    · have hpayload := payloadEnd_range h
      exact ⟨by omega,hpayload.2⟩
    · have hitems := repeatEnd_range (fun _ _ => ih) value hbound h
      exact ⟨by omega,hitems.2⟩
    · have hpair : ∀ c stop, (do itemEnd data depth (← itemEnd data depth c)) = .ok stop →
          c < stop ∧ stop ≤ data.length := by
        intro c stop hc
        obtain ⟨mid,hkey,hvalue⟩ := (bind_ok _ _ _).mp hc
        have hk := ih hkey
        have hv := ih hvalue
        exact ⟨by omega,hv.2⟩
      have hitems := repeatEnd_range hpair value hbound h
      exact ⟨by omega,hitems.2⟩
    · cases h
      exact ⟨by omega,hbound⟩

theorem cborItemEnd_range (h : cborItemEnd data offset = .ok stop) :
    offset < stop ∧ stop ≤ data.length := itemEnd_range h

/-- What is read as text is its UTF-8. -/
theorem utf8_of_fromUtf8 {b : Bytes} {s : Str} (h : fromUtf8 b = some s) : utf8 s = b := by
  have hvalid : b.toByteArray.utf8Decode?.isSome := by
    rw [← Option.isSome_map (f := Array.toList)]
    exact Option.isSome_iff_exists.mpr ⟨s,h⟩
  obtain ⟨t,ht⟩ := ByteArray.isSome_utf8Decode?_iff.mp hvalid
  have hutf8 : b = utf8 t := List.toByteArray_inj.mp ht
  rw [hutf8,fromUtf8_utf8] at h
  rw [hutf8,Option.some.inj h]

theorem slice_length (h : stop ≤ data.length) : (slice data start stop).length = stop-start := by
  rw [slice,List.length_take,List.length_drop]
  omega

theorem decodeCborText_range {s : Str} (h : decodeCborText data offset = .ok (s,stop)) :
    offset < stop ∧ stop ≤ data.length ∧ (utf8 s).length ≤ data.length := by
  obtain ⟨⟨major,len,size⟩,hhead,h⟩ := (bind_ok _ _ _).mp h
  have ⟨hsize,_⟩ := parseCborHead_range hhead
  simp only at h
  split_ifs at h
  obtain ⟨stop',hend,h⟩ := (bind_ok _ _ _).mp h
  obtain ⟨s',hs,h⟩ := (bind_ok _ _ _).mp h
  cases h
  have hrange := payloadEnd_range hend
  have hlen : (slice data (offset+size) stop).length = stop-(offset+size) := slice_length hrange.2
  rw [utf8_of_fromUtf8 ((okOr_ok _ _ _).mp hs),hlen]
  exact ⟨by omega,hrange.2,by omega⟩

theorem mapHead_range {count size : ℕ} {expected : String}
    (h : mapHead data offset expected = .ok (count,size)) : 0 < size ∧ offset+size ≤ data.length := by
  obtain ⟨⟨major,count',size'⟩,hhead,h⟩ := (bind_ok _ _ _).mp h
  simp only at h
  split_ifs at h
  cases h
  exact parseCborHead_range hhead

theorem findField_length {b : Bytes} {key : Str} {count cursor : ℕ}
    (h : findField data key count cursor = .ok (some b)) : b.length ≤ data.length := by
  induction count generalizing cursor with
  | zero => cases h
  | succ count ih =>
    obtain ⟨⟨k,start⟩,_,h⟩ := (bind_ok _ _ _).mp h
    obtain ⟨stop,hstop,h⟩ := (bind_ok _ _ _).mp h
    have hrange := cborItemEnd_range hstop
    split_ifs at h
    · cases h
      rw [slice_length hrange.2]
      omega
    · exact ih h

namespace Checked

/-! Each decoder does what it says, and nothing in it is cut short. -/

section Runs

variable {data : Bytes} (hd : data.length < 2^63) {n : ℕ}
include hd

theorem headArgument_ends (ho : offset < data.length) (major : UInt8) {width : ℕ}
    (hw : width ≤ 8) (name : String) : Ends n (headArgument data offset major width name)
      (if offset+1+width > data.length then
        .error (.cborDecode ("EOF reading CBOR "++name++ " argument"))
      else .ok (major,beNumber (Wire.slice data (offset+1) (offset+1+width)),1+width)) := by
  refine (ends_add (by omega)).step ?_
  rw [← Nat.add_assoc]
  refine Ends.ite (fun _ => ends_fail _) fun hle => ?_
  refine (ends_add (by omega)).step ?_
  exact (ends_slice (by omega) (by omega)).step (ends_pure _)

theorem parseCborHead_ends (offset : ℕ) :
    Ends n (parseCborHead data offset) (Wire.parseCborHead data offset) := by
  unfold parseCborHead Wire.parseCborHead
  by_cases ho : offset < data.length
  · have hfirst : data[offset]? = some data[offset] := List.getElem?_eq_getElem ho
    rw [if_neg (by omega),hfirst]
    refine (ends_index hfirst).step ?_
    refine Ends.ite (fun _ => ends_pure _) fun _ => ?_
    refine Ends.ite (fun _ => headArgument_ends hd ho _ (by omega) _) fun _ => ?_
    refine Ends.ite (fun _ => headArgument_ends hd ho _ (by omega) _) fun _ => ?_
    refine Ends.ite (fun _ => headArgument_ends hd ho _ (by omega) _) fun _ => ?_
    exact Ends.ite (fun _ => headArgument_ends hd ho _ (by omega) _) fun _ => ends_fail _
  · rw [if_pos (by omega),List.getElem?_eq_none (by omega)]
    exact ends_fail _

omit hd in
theorem repeatEnd_ends {step : ℕ → Aborting WireError ℕ} {step' : ℕ → Except WireError ℕ}
    (low : ℕ) (hstep : ∀ c ≥ low, Ends n (step c) (step' c))
    (hup : ∀ c stop, step' c = .ok stop → c < stop) (k : ℕ) (hc : low ≤ c) :
    Ends n (repeatEnd step k c) (Wire.repeatEnd step' k c) := by
  induction k generalizing c with
  | zero => exact ends_pure c
  | succ k ih =>
    refine (hstep c hc).bind fun next hnext => ?_
    have hlt := hup c next hnext
    exact ih (by omega)

/-- The bytes that are left bound the depth: every level takes a head. -/
theorem itemEnd_ends (h : data.length-offset < depth) :
    Ends n (itemEnd data depth offset) (Wire.itemEnd data depth offset) := by
  induction depth generalizing offset with
  | zero => exact absurd h (Nat.not_lt_zero _)
  | succ depth ih =>
    refine (parseCborHead_ends hd offset).bind ?_
    rintro ⟨major,value,size⟩ hhead
    have ⟨hsize,hbound⟩ := parseCborHead_range hhead
    have hstep : ∀ c ≥ offset+size, Ends n (itemEnd data depth c) (Wire.itemEnd data depth c) :=
      fun c hc => ih (by omega)
    have hup : ∀ c stop, Wire.itemEnd data depth c = .ok stop → c < stop :=
      fun _ _ hc => (itemEnd_range hc).1
    refine (ends_add (by omega)).step ?_
    refine Ends.ite (fun _ => ends_pure _) fun _ => ?_
    refine Ends.ite (fun _ => ends_lift _) fun _ => ?_
    refine Ends.ite (fun _ => repeatEnd_ends _ hstep hup value le_rfl) fun _ => ?_
    refine Ends.ite (fun _ => ?_) fun _ => ?_
    · refine repeatEnd_ends _ (fun c hc => (hstep c hc).bind fun mid hmid => ?_) ?_ value le_rfl
      · have hlt := hup c mid hmid
        exact hstep mid (by omega)
      · intro c stop hc
        obtain ⟨mid,hkey,hvalue⟩ := (bind_ok _ _ _).mp hc
        exact (hup c mid hkey).trans (hup mid stop hvalue)
    · exact Ends.ite (fun _ => ends_fail _) fun _ => ends_pure _

omit hd in
theorem repeatEnd_congr {step step' : ℕ → Aborting WireError ℕ} (low : ℕ)
    (hstep : ∀ c ≥ low, step c = step' c)
    (hup : ∀ c ≥ low, ∀ stop, (step' c).outcome = .ok (.ok stop) → c < stop) (k : ℕ)
    (hc : low ≤ c) : repeatEnd step k c = repeatEnd step' k c := by
  induction k generalizing c with
  | zero => rfl
  | succ k ih =>
    rw [repeatEnd,repeatEnd,hstep c hc]
    refine bind_agree fun next hnext => ?_
    have hlt := hup c hc next hnext
    exact ih (by omega)

/-- A walk that may go deeper does not. -/
theorem itemEnd_depth {depth' : ℕ} (h : data.length-offset < depth)
    (h' : data.length-offset < depth') :
    itemEnd data depth offset = itemEnd data depth' offset := by
  induction depth generalizing depth' offset with
  | zero => exact absurd h (Nat.not_lt_zero _)
  | succ depth ih =>
    cases depth' with
    | zero => exact absurd h' (Nat.not_lt_zero _)
    | succ depth' =>
      rw [itemEnd,itemEnd]
      refine bind_agree ?_
      rintro ⟨major,value,size⟩ hhead
      rw [(parseCborHead_ends (n := 0) hd offset).1,Except.ok.injEq] at hhead
      have ⟨hsize,hbound⟩ := parseCborHead_range hhead
      have hstep : ∀ c ≥ offset+size, itemEnd data depth c = itemEnd data depth' c :=
        fun c hc => ih (by omega) (by omega)
      have hup : ∀ c ≥ offset+size, ∀ stop, (itemEnd data depth' c).outcome = .ok (.ok stop) →
          c < stop := by
        intro c hc stop hstop
        rw [(itemEnd_ends (n := 0) hd (by omega)).1,Except.ok.injEq] at hstop
        exact (itemEnd_range hstop).1
      have hpair : ∀ c ≥ offset+size, (do itemEnd data depth (← itemEnd data depth c)) =
          (do itemEnd data depth' (← itemEnd data depth' c)) := by
        intro c hc
        rw [hstep c hc]
        refine bind_agree fun mid hmid => ?_
        have hlt := hup c hc mid hmid
        exact hstep mid (by omega)
      have hpairUp : ∀ c ≥ offset+size, ∀ stop,
          (do itemEnd data depth' (← itemEnd data depth' c)).outcome = .ok (.ok stop) →
            c < stop := by
        intro c hc stop hstop
        have hrun : Ends 0 (do itemEnd data depth' (← itemEnd data depth' c))
            (do Wire.itemEnd data depth' (← Wire.itemEnd data depth' c)) := by
          refine (itemEnd_ends hd (by omega)).bind fun mid hmid => ?_
          have hkey := itemEnd_range hmid
          exact itemEnd_ends hd (by omega)
        rw [hrun.1,Except.ok.injEq] at hstop
        obtain ⟨mid,hkey,hvalue⟩ := (bind_ok _ _ _).mp hstop
        exact (itemEnd_range hkey).1.trans (itemEnd_range hvalue).1
      refine bind_agree fun afterHead hafter => ?_
      have hsum : afterHead = offset+size := by
        rw [(ends_add (n := 0) (by omega)).1,Except.ok.injEq,Except.ok.injEq] at hafter
        exact hafter.symm
      subst hsum
      rw [repeatEnd_congr _ hstep hup value le_rfl, repeatEnd_congr _ hpair hpairUp value le_rfl]

theorem cborItemEnd_ends (offset : ℕ) :
    Ends n (cborItemEnd data offset) (Wire.cborItemEnd data offset) :=
  itemEnd_ends hd (by omega)

theorem decodeCborText_ends (offset : ℕ) :
    Ends n (decodeCborText data offset) (Wire.decodeCborText data offset) := by
  refine (parseCborHead_ends hd offset).bind ?_
  rintro ⟨major,len,size⟩ hhead
  have ⟨_,hbound⟩ := parseCborHead_range hhead
  refine Ends.ite (fun _ => ends_fail _) fun _ => ?_
  refine (ends_add (by omega)).step ?_
  refine (ends_lift _).bind fun stop hend => ?_
  have hrange := payloadEnd_range hend
  refine (ends_slice (by omega) hrange.2).step ?_
  exact (ends_lift _).bind fun s _ => ends_pure _

theorem decodeCborBytes_ends (offset : ℕ) :
    Ends n (decodeCborBytes data offset) (Wire.decodeCborBytes data offset) := by
  refine (parseCborHead_ends hd offset).bind ?_
  rintro ⟨major,len,size⟩ hhead
  have ⟨_,hbound⟩ := parseCborHead_range hhead
  refine Ends.ite (fun _ => ends_fail _) fun _ => ?_
  refine (ends_add (by omega)).step ?_
  refine (ends_lift _).bind fun stop hend => ?_
  have hrange := payloadEnd_range hend
  exact (ends_slice (by omega) hrange.2).step (ends_pure _)

theorem mapHead_ends (offset : ℕ) (expected : String) :
    Ends n (mapHead data offset expected) (Wire.mapHead data offset expected) := by
  refine (parseCborHead_ends hd offset).bind ?_
  rintro ⟨major,count,size⟩ _
  exact Ends.ite (fun _ => ends_fail _) fun _ => ends_pure _

/-! Hashes: the varint has at most five groups, so no shift reaches 32. -/

omit hd in
theorem readVarintLoop_ends (value shift consumed : ℕ) (bytes : Bytes)
    (hshift : shift = 7*consumed) (hfew : consumed < 5) :
    Ends n (readVarintLoop value shift consumed bytes)
      (Hash.readVarintLoop value shift consumed bytes) := by
  induction bytes generalizing value shift consumed with
  | nil => exact ends_fail _
  | cons b bs ih =>
    unfold readVarintLoop Hash.readVarintLoop
    refine (ends_add (by omega)).step ?_
    refine Ends.ite (fun _ => ends_fail _) fun _ => ?_
    refine (ends_shiftLeft (by omega)).step ?_
    refine Ends.ite (fun _ => ends_pure _) fun _ => ?_
    refine Ends.ite (fun _ => ends_fail _) fun hless => ?_
    exact ih _ _ _ (by omega) (by omega)

omit hd in
theorem hashNew_ends {algorithm : UInt8} {digest : Bytes}
    (h : Hash.digestLenForFormat algorithm = some digest.length) :
    Ends n (hashNew algorithm digest) (.ok ⟨algorithm,digest,h⟩) := by
  rw [hashNew,dif_pos h]
  exact ends_pure _

omit hd in
theorem hashFromBytes_ends (bytes : Bytes) :
    Ends n (hashFromBytes bytes) (Hash.fromBytes bytes) := by
  refine (readVarintLoop_ends 0 0 0 bytes rfl (by omega)).bind ?_
  rintro ⟨formatValue,consumed⟩ hread
  obtain ⟨digits,_,_,_,hfew,rfl,_⟩ := (Hash.readVarintU32_ok _ _ _).mp hread
  refine Ends.ite (fun _ => ends_fail _) fun _ => ?_
  refine Ends.ite (fun _ => ends_fail _) fun _ => ?_
  simp only
  split
  · rename_i hnone
    split
    · exact ends_fail _
    · rename_i hsome
      rw [hnone] at hsome
      cases hsome
  · rename_i expected hexpected
    split
    · rename_i hnone
      rw [hnone] at hexpected
      cases hexpected
    · rename_i expected' hexpected'
      have hallocated := hexpected
      rw [hexpected',Option.some.injEq] at hexpected
      subst hexpected
      have hsmall : expected' ≤ 48 := by
        unfold Hash.digestLenForFormat at hexpected'
        split_ifs at hexpected' <;> cases hexpected' <;> omega
      refine (ends_add (by omega)).step ?_
      by_cases hlen : bytes.length = digits.length+expected'
      · rw [if_neg (not_not.mpr hlen),dif_pos hlen]
        refine (ends_slice (by omega) (by omega)).step ?_
        have htake : (bytes.drop digits.length).take (digits.length+expected'-digits.length) =
            bytes.drop digits.length := by
          rw [← hlen]
          exact List.take_of_length_le (by rw [List.length_drop])
        rw [htake]
        exact hashNew_ends _
      · rw [if_pos hlen,dif_neg hlen]
        exact ends_fail _

omit hd in
theorem wireHash_ends (bytes : Bytes) : Ends n (wireHash bytes)
    (mapErr (fun e => WireError.cborDecode e.display) (Hash.fromBytes bytes)) :=
  (hashFromBytes_ends bytes).mapError _

/-! Fields. -/

/-- What a field is read with lies within the data. -/
theorem walkFields_ends {σ : Type} {onField : σ → Str → ℕ → ℕ → Aborting WireError σ}
    {onField' : σ → Str → ℕ → ℕ → Except WireError σ}
    (hfield : ∀ fields key start stop, start < stop → stop ≤ data.length →
      Ends n (onField fields key start stop) (onField' fields key start stop))
    (count cursor : ℕ) (fields : σ) : Ends n (walkFields data onField count cursor fields)
      (Wire.walkFields data onField' count cursor fields) := by
  induction count generalizing cursor fields with
  | zero => exact ends_pure fields
  | succ count ih =>
    refine (decodeCborText_ends hd cursor).bind ?_
    rintro ⟨key,start⟩ _
    refine (cborItemEnd_ends hd start).bind fun stop hstop => ?_
    have hrange := cborItemEnd_range hstop
    exact (hfield fields key start stop hrange.1 hrange.2).bind fun fields' _ => ih stop fields'

variable (hn : data.length ≤ n)
include hn

/-- The text that is copied is no longer than the data. -/
theorem textAt_ends {β : Type} (offset : ℕ) {f : Str → Aborting WireError β}
    {g : Str × ℕ → Except WireError β} (hf : ∀ s stop, Ends n (f s) (g (s,stop))) :
    Ends n (textAt data offset >>= f) (Wire.decodeCborText data offset >>= g) := by
  have hcopy : Ends n (textAt data offset)
      (Wire.decodeCborText data offset >>= fun p => pure p.1) := by
    refine (decodeCborText_ends hd offset).bind fun p hp => ?_
    have hlen := (decodeCborText_range hp).2.2
    exact (ends_toVec (by omega) (by omega)).step (ends_pure _)
  cases hread : Wire.decodeCborText data offset with
  | error e =>
    rw [hread] at hcopy
    exact hcopy.bind (g := fun _ => .error e) fun s hs => by cases hs
  | ok p =>
    rw [hread] at hcopy
    exact Ends.step hcopy (hf p.1 p.2)

theorem copyRange_ends (h : start ≤ stop) (h' : stop ≤ data.length) :
    Ends n (copyRange data start stop) (.ok (Wire.slice data start stop)) := by
  have hlen : (Wire.slice data start stop).length = stop-start := slice_length h'
  refine (ends_slice h h').step ?_
  exact ends_toVec (by rw [Wire.slice] at hlen; omega) (by rw [Wire.slice] at hlen; omega)

theorem entityField_ends (fields : EntityFields) (key : Str) (h : start < stop)
    (h' : stop ≤ data.length) : Ends n (entityField data fields key start stop)
      (Wire.entityField data fields key start stop) := by
  refine Ends.ite (fun _ => textAt_ends hd hn start fun _ _ => ends_pure _) fun _ => ?_
  refine Ends.ite (fun _ => (copyRange_ends hd hn h.le h').step (ends_pure _)) fun _ => ?_
  refine Ends.ite (fun _ => ?_) fun _ => ends_pure _
  refine (decodeCborBytes_ends hd start).bind ?_
  rintro ⟨bytes,stop'⟩ _
  exact (wireHash_ends bytes).bind fun hash _ => ends_pure _

theorem decodeEntity_ends : Ends n (decodeEntity data) (Wire.decodeEntity data) := by
  refine (mapHead_ends hd 0 _).bind ?_
  rintro ⟨count,size⟩ _
  refine (walkFields_ends hd (fun fields key start stop h h' =>
    entityField_ends hd hn fields key h h') count size _).bind fun fields _ => ?_
  refine (ends_lift _).bind fun entityType _ => ?_
  refine (ends_lift _).bind fun entityData _ => ?_
  exact (ends_lift _).bind fun contentHash _ => ends_pure _

theorem partsField_ends (fields : Option Str × Option Bytes) (key : Str)
    (h : start < stop) (h' : stop ≤ data.length) : Ends n (partsField data fields key start stop)
      (Wire.partsField data fields key start stop) := by
  refine Ends.ite (fun _ => textAt_ends hd hn start fun _ _ => ends_pure _) fun _ => ?_
  exact Ends.ite (fun _ => (copyRange_ends hd hn h.le h').step (ends_pure _))
    fun _ => ends_pure _

theorem decodeEntityParts_ends : Ends n (decodeEntityParts data) (Wire.decodeEntityParts data) := by
  refine (mapHead_ends hd 0 _).bind ?_
  rintro ⟨count,size⟩ _
  refine (walkFields_ends hd (fun fields key start stop h h' =>
    partsField_ends hd hn fields key h h') count size _).bind fun fields _ => ?_
  refine (ends_lift _).bind fun entityType _ => ?_
  exact (ends_lift _).bind fun entityData _ => ends_pure _

/-- An entity inside the data is decoded from its own bytes. -/
theorem entityIn_ends (h : start ≤ stop) (h' : stop ≤ data.length) :
    Ends n (entityIn data start stop) (Wire.decodeEntity (Wire.slice data start stop)) := by
  have hlen : (Wire.slice data start stop).length = stop-start := slice_length h'
  have hentity : Ends n (decodeEntity (Wire.slice data start stop))
      (Wire.decodeEntity (Wire.slice data start stop)) :=
    decodeEntity_ends (by omega) (by omega)
  exact (ends_slice h h').step hentity

theorem decodeIncluded_ends (count cursor : ℕ) (included : OrderedMap Hash Entity) :
    Ends n (decodeIncluded data count cursor included)
      (Wire.decodeIncluded data count cursor included) := by
  induction count generalizing cursor included with
  | zero => exact ends_pure included
  | succ count ih =>
    refine (decodeCborBytes_ends hd cursor).bind ?_
    rintro ⟨bytes,start⟩ _
    refine (wireHash_ends bytes).bind fun hash _ => ?_
    refine (cborItemEnd_ends hd start).bind fun stop hstop => ?_
    have hrange := cborItemEnd_range hstop
    refine (entityIn_ends hd hn hrange.1.le hrange.2).bind fun entity _ => ?_
    exact Ends.ite (fun _ => ends_fail _) fun _ => ih stop _

theorem envelopeField_ends (fields : Option Entity × OrderedMap Hash Entity) (key : Str)
    (h : start < stop) (h' : stop ≤ data.length) : Ends n (envelopeField data fields key start stop)
      (Wire.envelopeField data fields key start stop) := by
  refine Ends.ite (fun _ => ?_) fun _ => Ends.ite (fun _ => ?_) fun _ => ends_pure _
  · exact (entityIn_ends hd hn h.le h').bind fun root _ => ends_pure _
  · refine (mapHead_ends hd start _).bind ?_
    rintro ⟨count,size⟩ hhead
    have hbound := mapHead_range hhead
    refine (ends_add (by omega)).step ?_
    exact (decodeIncluded_ends hd hn count _ fields.2).bind fun included _ => ends_pure _

theorem decodeEnvelope_ends : Ends n (decodeEnvelope data) (Wire.decodeEnvelope data) := by
  refine (mapHead_ends hd 0 _).bind ?_
  rintro ⟨count,size⟩ _
  refine (walkFields_ends hd (fun fields key start stop h h' =>
    envelopeField_ends hd hn fields key h h') count size _).bind fun fields _ => ?_
  exact (ends_lift _).bind fun root _ => ends_pure _

omit hn in
theorem findField_ends (key : Str) (count cursor : ℕ) :
    Ends n (findField data key count cursor) (Wire.findField data key count cursor) := by
  induction count generalizing cursor with
  | zero => exact ends_pure none
  | succ count ih =>
    refine (decodeCborText_ends hd cursor).bind ?_
    rintro ⟨k,start⟩ _
    refine (cborItemEnd_ends hd start).bind fun stop hstop => ?_
    have hrange := cborItemEnd_range hstop
    exact Ends.ite (fun _ => (ends_slice hrange.1.le hrange.2).step (ends_pure _))
      fun _ => ih stop

/-- A field that is found is a range of the data. -/
theorem decodeEnvelopeRoot_ends :
    Ends n (decodeEnvelopeRoot data) (Wire.decodeEnvelopeRoot data) := by
  refine (mapHead_ends hd 0 _).bind ?_
  rintro ⟨count,size⟩ _
  refine (findField_ends hd _ count size).bind fun found hfound => ?_
  refine (ends_lift _).bind fun root hroot => ?_
  have hlen := findField_length ((okOr_ok _ _ _).mp hroot ▸ hfound)
  exact decodeEntity_ends (by omega) (by omega)

omit hn in
theorem cborMapFieldRaw_ends (key : Str) :
    Ends n (cborMapFieldRaw data key) (okOr (Wire.cborMapFieldRaw data key) ()) := by
  have hhead := (mapHead_ends (n := n) hd 0 "expected CBOR map").mapError fun _ => ()
  unfold cborMapFieldRaw Wire.cborMapFieldRaw
  cases hmap : Wire.mapHead data 0 "expected CBOR map" with
  | error e =>
    rw [hmap] at hhead
    exact hhead.bind (g := fun _ => .error ()) fun p hp => by cases hp
  | ok p =>
    rw [hmap] at hhead
    refine Ends.step hhead ?_
    have hfind := (findField_ends (n := n) hd key p.1 p.2).mapError fun _ => ()
    simp only
    cases hfound : Wire.findField data key p.1 p.2 with
    | error e =>
      rw [hfound] at hfind
      exact hfind.bind (g := fun _ => .error ()) fun p hp => by cases hp
    | ok found =>
      rw [hfound] at hfind
      exact Ends.step hfind (ends_lift _)

/-! The helpers that take a count for a capacity. -/

omit hn in
theorem elementsRaw_ends (count cursor : ℕ) :
    Ends n (elementsRaw data count cursor) (Wire.elementsRaw data count cursor) := by
  induction count generalizing cursor with
  | zero => exact ends_pure []
  | succ count ih =>
    refine (cborItemEnd_ends hd cursor).bind fun stop hstop => ?_
    have hrange := cborItemEnd_range hstop
    refine (ends_slice hrange.1.le hrange.2).step ?_
    exact (ih stop).bind fun rest _ => ends_pure _

theorem otherEntries_ends (key : Str) (count cursor : ℕ) :
    Ends n (otherEntries data key count cursor) (Wire.otherEntries data key count cursor) := by
  induction count generalizing cursor with
  | zero => exact ends_pure []
  | succ count ih =>
    refine (decodeCborText_ends hd cursor).bind ?_
    rintro ⟨k,start⟩ hkey
    have hname := decodeCborText_range hkey
    refine (cborItemEnd_ends hd start).bind fun stop hstop => ?_
    have hrange := cborItemEnd_range hstop
    by_cases hk : k = key
    · simp only [hk,ne_eq,not_true_eq_false,if_false,bind_pure]
      exact ih stop
    · simp only [hk,ne_eq,not_false_eq_true,if_true]
      refine (copyRange_ends hd hn hname.1.le hname.2.1).step ?_
      refine (copyRange_ends hd hn hrange.1.le hrange.2).step ?_
      exact (ih stop).bind fun rest _ => ends_pure _

end Runs

/-- A head of this kind claims no more than there is room for, and no more than bytes. -/
def RoomFor (data : Bytes) (kind : UInt8) (size extra n : ℕ) : Prop :=
  ∀ count headSize, Wire.parseCborHead data 0 = .ok (kind,count,headSize) →
    count+extra ≤ n ∧ size*(count+extra) < 2^63

section Capacity

variable {data : Bytes} (hd : data.length < 2^63)
include hd

theorem cborArrayElementsRaw_sound :
    Sound data.length (cborArrayElementsRaw data) ↔ RoomFor data 4 sliceSize 0 data.length := by
  have hrun := (parseCborHead_ends (n := data.length) hd 0).mapError fun _ => ()
  constructor
  · intro h count headSize hhead
    rw [hhead] at hrun
    exact sound_withCapacity.mp (h.right hrun.1).left
  · intro hroom
    have hreturns : Ends data.length (cborArrayElementsRaw data)
        (mapErr (fun _ => ()) (Wire.parseCborHead data 0) >>= fun head =>
          if head.1 ≠ 4 then .error () else
            mapErr (fun _ => ()) (Wire.elementsRaw data head.2.1 head.2.2)) := by
      refine hrun.bind ?_
      rintro ⟨major,count,headSize⟩ hhead
      refine Ends.ite (fun _ => ends_fail _) fun hmajor => ?_
      rw [not_not.mp hmajor] at hhead
      have hfits := hroom count headSize ((mapErr_ok _ _ _).mp hhead)
      refine (ends_withCapacity hfits.1 hfits.2).step ?_
      exact (elementsRaw_ends hd count headSize).mapError _
    exact hreturns.sound

/-- The value counts as input, as the map does. -/
theorem cborMapSetRaw_sound (key : Str) (value : Bytes)
    (hlen : data.length+(utf8 key).length+value.length < 2^63) :
    Sound (data.length+(utf8 key).length+value.length) (cborMapSetRaw data key value) ↔
      RoomFor data 5 entrySize 1 (data.length+(utf8 key).length+value.length) := by
  have hhead := mapHead_ends (n := data.length+(utf8 key).length+value.length) hd 0
    "cbor_map_set_raw: expected CBOR map"
  constructor
  · intro h count headSize hparse
    have hmap : Wire.mapHead data 0 "cbor_map_set_raw: expected CBOR map" = .ok (count,headSize) := by
      rw [Wire.mapHead,hparse]
      rfl
    rw [hmap] at hhead
    have hrest := h.right hhead.1
    have hadd := hrest.left.add_lt
    exact sound_withCapacity.mp (hrest.right (ends_add (n := 0) hadd).1).left
  · intro hroom
    have hreturns : Ends (data.length+(utf8 key).length+value.length)
        (cborMapSetRaw data key value) (Wire.cborMapSetRaw data key value) := by
      refine hhead.bind ?_
      rintro ⟨count,headSize⟩ hmap
      obtain ⟨⟨major,count',headSize'⟩,hparse,hmap⟩ := (bind_ok _ _ _).mp hmap
      by_cases hmajor : major = 5
      · subst hmajor
        cases hmap
        have hfits := hroom count headSize hparse
        refine (ends_add (by omega)).step ?_
        refine (ends_withCapacity hfits.1 hfits.2).step ?_
        refine (otherEntries_ends hd (by omega) key count headSize).bind fun entries _ => ?_
        exact (ends_toVec (by omega) (by omega)).step (ends_pure _)
      · simp only [ne_eq,hmajor,not_false_eq_true,if_true] at hmap
        cases hmap
    exact hreturns.sound

end Capacity

/-- Every decoder ends, within bounds and within the room that its input justifies. -/
structure DecodersTotal (data : Bytes) (key : Str) (value : Bytes) : Prop where
  entity : Sound data.length (decodeEntity data)
  parts : Sound data.length (decodeEntityParts data)
  envelope : Sound data.length (decodeEnvelope data)
  envelopeRoot : Sound data.length (decodeEnvelopeRoot data)
  mapFieldRaw : Sound data.length (cborMapFieldRaw data key)
  arrayElementsRaw : Sound data.length (cborArrayElementsRaw data)
  mapSetRaw : Sound (data.length+(utf8 key).length+value.length) (cborMapSetRaw data key value)
  itemEnd : ∀ offset, Sound data.length (cborItemEnd data offset) ∧
    (∀ depth > data.length, Checked.itemEnd data depth offset = cborItemEnd data offset) ∧
    ∀ stop, (cborItemEnd data offset).outcome = .ok (.ok stop) → offset < stop ∧ stop ≤ data.length

/-- The head of an array of as many elements as a size can say. -/
def hugeArray : Bytes := [0x9B,0xFF,0xFF,0xFF,0xFF,0xFF,0xFF,0xFF,0xFF]

def hugeMap : Bytes := [0xBB,0xFF,0xFF,0xFF,0xFF,0xFF,0xFF,0xFF,0xFF]

end Checked
end Wire
end EntityCore
