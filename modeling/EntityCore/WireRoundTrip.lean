import EntityCore.Delegation
import EntityCore.Wire

/-! Entities and envelopes survive the wire. The walker stops exactly where the encoding of
a value stops, whatever follows it, so every reader gets the bytes its writer put there. -/
namespace EntityCore
variable {data : Bytes} {o k n depth : ℕ}

namespace Wire

open Ecf ByteCode Outcome

/-! Bytes at an offset. -/

/-- The bytes `b` stand at an offset of the data. -/
def At (data : Bytes) (offset : ℕ) (b : Bytes) : Prop :=
  ∃ before after, data = before++(b++after) ∧ before.length = offset

theorem at_zero {b : Bytes} (h : data = b) : At data 0 b := ⟨[],[],by simpa using h,rfl⟩

theorem At.left {a b : Bytes} (h : At data o (a++b)) : At data o a := by
  obtain ⟨before,after,hd,hl⟩ := h
  exact ⟨before,b++after,by simpa using hd,hl⟩

theorem At.right {a b : Bytes} (h : At data o (a++b)) : At data (o+a.length) b := by
  obtain ⟨before,after,hd,hl⟩ := h
  exact ⟨before++a,after,by simpa using hd,by simp [hl]⟩

theorem At.bound {b : Bytes} (h : At data o b) : o+b.length ≤ data.length := by
  obtain ⟨before,after,rfl,rfl⟩ := h
  simp only [List.length_append]
  omega

theorem At.slice {b : Bytes} (h : At data o b) : slice data o (o+b.length) = b := by
  obtain ⟨before,after,rfl,rfl⟩ := h
  simp [Wire.slice]

theorem At.first {b : Bytes} {x : UInt8} (h : At data o (x::b)) : data[o]? = some x := by
  obtain ⟨before,after,rfl,rfl⟩ := h
  simp

/-! Heads. -/

theorem majorBits {first : UInt8} {i : ℕ} (hi : i < 32) (h : first.toNat = 32*k+i) :
    first >>> 5 = UInt8.ofNat k ∧ first &&& 0x1F = UInt8.ofNat i := by
  have hlt := first.toNat_lt
  constructor
  · apply UInt8.toNat_inj.mp
    have hs : (first >>> 5).toNat = first.toNat/2^5 := by
      simp [UInt8.toNat_shiftRight,Nat.shiftRight_eq_div_pow]
    rw [hs,UInt8.toNat_ofNat']
    omega
  · apply UInt8.toNat_inj.mp
    have hm : (first &&& 0x1F).toNat = first.toNat%2^5 := by
      have hh := Nat.and_two_pow_sub_one_eq_mod first.toNat 5
      simpa [UInt8.toNat_and] using hh
    rw [hm,UInt8.toNat_ofNat']
    omega

/-- The argument a first byte's low bits ask for. -/
theorem parseCborHead_info {major : UInt8} {i m : ℕ} (hm : IsMajor major k)
    (hi : i < 28) (hw : m < 256^infoWidth i)
    (h : At data o ((major ||| UInt8.ofNat i)::beBytes (infoWidth i) m)) :
    parseCborHead data o = .ok (UInt8.ofNat k,if i < 24 then i else m,1+infoWidth i) := by
  have hbits := majorBits (by omega) (hm.firstByte (i := i) (by omega))
  have hbound := h.bound
  have hrest : At data (o+1) (beBytes (infoWidth i) m) :=
    At.right (a := [major ||| UInt8.ofNat i]) h
  have hslice := hrest.slice
  have hnum := beNumber_beBytes (infoWidth i) m
  rw [Nat.mod_eq_of_lt hw] at hnum
  simp only [List.length_cons,beBytes_length] at hbound hslice
  simp only [parseCborHead,h.first,hbits.1,hbits.2]
  by_cases hs : i < 24
  · have hle : UInt8.ofNat i ≤ 23 := by
      rw [UInt8.le_iff_toNat_le,UInt8.toNat_ofNat']
      show i%256 ≤ 23
      omega
    have hto : (UInt8.ofNat i).toNat = i := by
      rw [UInt8.toNat_ofNat']
      omega
    simp [hle,hs,hto,infoWidth]
  · have hcases : i = 24 ∨ i = 25 ∨ i = 26 ∨ i = 27 := by omega
    rcases hcases with rfl | rfl | rfl | rfl
    all_goals
      simp only [infoWidth] at hbound hslice hnum
      norm_num at hbound hslice hnum
      simp [infoWidth,hslice,hnum,show ¬ data.length < _ from Nat.not_lt.mpr hbound]

theorem headInfo_bound (hn : n < 2^64) (h : ¬ headInfo n < 24) :
    n < 256^infoWidth (headInfo n) := by
  unfold headInfo at h ⊢
  split_ifs at h ⊢ <;> simp [infoWidth] <;> omega

theorem parseCborHead_at {major : UInt8} (hm : IsMajor major k)
    (hn : n < 2^64) (h : At data o (encodeHead major n)) :
    parseCborHead data o = .ok (UInt8.ofNat k,n,(encodeHead major n).length) := by
  rw [encodeHead_eq] at h ⊢
  have hlt := headInfo_lt n
  have hlen : ((major ||| UInt8.ofNat (headInfo n))::beBytes (infoWidth (headInfo n)) n).length =
      1+infoWidth (headInfo n) := by
    rw [List.length_cons,beBytes_length,Nat.add_comm]
  by_cases hs : headInfo n < 24
  · have hinfo : headInfo n = n := by
      unfold headInfo at hs ⊢
      split_ifs at hs ⊢ <;> omega
    have hzero : infoWidth (headInfo n) = 0 := if_pos hs
    rw [hlen]
    rw [hzero,show beBytes 0 n = beBytes (infoWidth (headInfo n)) 0 by rw [hzero]; rfl] at h
    have hparse := parseCborHead_info hm hlt (Nat.pow_pos (by norm_num)) h
    rw [if_pos hs,hinfo] at hparse
    rwa [hinfo]
  · have hparse := parseCborHead_info hm hlt (headInfo_bound hn hs) h
    rwa [if_neg hs,← hlen] at hparse

/-! The walker. -/

/-- No tag at any depth. -/
inductive TagFree : Value → Prop
  | null : TagFree .null
  | bool (b) : TagFree (.bool b)
  | integer (i) : TagFree (.integer i)
  | float (f) : TagFree (.float f)
  | bytes (b) : TagFree (.bytes b)
  | text (s) : TagFree (.text s)
  | array {vs} (h : ∀ v ∈ vs, TagFree v) : TagFree (.array vs)
  | map {m} (hk : ∀ e ∈ m, TagFree e.1) (hv : ∀ e ∈ m, TagFree e.2) : TagFree (.map m)

theorem encodeValue_ne_nil (v : Value) : encodeValue v ≠ [] := by
  induction v using Value.members_induction with
  | null => simp [encodeValue]
  | bool b => simp [encodeValue]
  | integer i =>
    rw [encodeValue,encodeInteger_eq]
    split_ifs
    · exact encodeHead_ne_nil _ _
    · exact encodeHead_ne_nil _ _
  | float f =>
    obtain ⟨b,t,h,_⟩ := encodeFloat_kind f
    rw [encodeValue,h]
    simp
  | bytes b => exact encodeValue_bytes_ne_nil b
  | text s =>
    rw [encodeValue,encodeCborText]
    exact List.append_ne_nil_of_left_ne_nil (encodeHead_ne_nil _ _) _
  | array vs => exact encodeValue_array_ne_nil vs
  | map m =>
    rw [encodeValue,encodeMap]
    exact List.append_ne_nil_of_left_ne_nil (encodeHead_ne_nil _ _) _
  | tag t v ih => exact ih

/-- A count is no larger than the items it counts. -/
theorem length_le_flatMap (vs : List Value) : vs.length ≤ (vs.flatMap encodeValue).length := by
  rw [← encodeItems_eq]
  exact length_le_encodeItems_of_ne_nil fun v _ => encodeValue_ne_nil v

theorem payloadEnd_at {b : Bytes} (what : String) (hd : data.length < 2^64)
    (h : At data o b) : payloadEnd data what o b.length = .ok (o+b.length) := by
  have hb := h.bound
  rw [payloadEnd,if_neg (by omega),if_neg (by omega)]

theorem itemEnd_payload {payload : Bytes} {major : UInt8}
    (hm : IsMajor major k) (hk : k = 2 ∨ k = 3) (hd : data.length < 2^64)
    (h : At data o (encodeHead major payload.length++payload)) :
    itemEnd data (depth+1) o = .ok (o+(encodeHead major payload.length++payload).length) := by
  have hb := h.right.bound
  have hparse := parseCborHead_at hm (by omega) h.left
  have hend := payloadEnd_at "string/bytes" hd h.right
  rw [itemEnd,hparse]
  rcases hk with rfl | rfl
  all_goals
    rw [List.length_append,← Nat.add_assoc]
    exact hend

theorem itemEnd_head {major : UInt8} (hm : IsMajor major k)
    (hk : k = 0 ∨ k = 1) (hn : n < 2^64) (h : At data o (encodeHead major n)) :
    itemEnd data (depth+1) o = .ok (o+(encodeHead major n).length) := by
  rw [itemEnd,parseCborHead_at hm hn h]
  rcases hk with rfl | rfl
  · rfl
  · rfl

theorem itemEnd_simple {i m : ℕ} (hi : i < 28) (hw : m < 256^infoWidth i)
    (h : At data o ((majorSimple ||| UInt8.ofNat i)::beBytes (infoWidth i) m)) :
    itemEnd data (depth+1) o =
      .ok (o+((majorSimple ||| UInt8.ofNat i)::beBytes (infoWidth i) m).length) := by
  have hm : IsMajor majorSimple 7 := ⟨by decide,by decide⟩
  rw [itemEnd,parseCborHead_info hm hi hw h,List.length_cons,beBytes_length,
    Nat.add_comm (infoWidth i)]
  rfl

/-- The walker stops where the encoding of the value stops. -/
def Walks (data : Bytes) (depth : ℕ) (v : Value) : Prop := ∀ o, At data o (encodeValue v) →
  (encodeValue v).length ≤ depth → itemEnd data depth o = .ok (o+(encodeValue v).length)

theorem walks_zero (data : Bytes) (v : Value) : Walks data 0 v := by
  intro o _ hdepth
  exact absurd (List.length_eq_zero_iff.mp (Nat.le_zero.mp hdepth)) (encodeValue_ne_nil v)

theorem repeatEnd_items {vs : List Value}
    (ih : ∀ v ∈ vs, Walks data depth v) (h : At data o (vs.flatMap encodeValue))
    (hd : (vs.flatMap encodeValue).length ≤ depth) :
    repeatEnd (itemEnd data depth) vs.length o = .ok (o+(vs.flatMap encodeValue).length) := by
  induction vs generalizing o with
  | nil => rfl
  | cons v vs ihv =>
    simp only [List.flatMap_cons,List.length_append] at h hd ⊢
    have hfirst := ih v (by simp) o h.left (by omega)
    have hrest := ihv (fun w hw => ih w (by simp [hw])) h.right (by omega)
    rw [List.length_cons,repeatEnd,hfirst,← Nat.add_assoc]
    exact hrest

theorem repeatEnd_pairs {m : List (Value × Value)}
    (ih : ∀ v ∈ flatten m, Walks data depth v)
    (h : At data o ((flatten m).flatMap encodeValue))
    (hd : ((flatten m).flatMap encodeValue).length ≤ depth) :
    repeatEnd (fun cursor => do itemEnd data depth (← itemEnd data depth cursor)) m.length o =
      .ok (o+((flatten m).flatMap encodeValue).length) := by
  induction m generalizing o with
  | nil => rfl
  | cons e m ihm =>
    have hflat : flatten (e::m) = e.1::e.2::flatten m := rfl
    rw [hflat] at h hd ih ⊢
    simp only [List.flatMap_cons,List.length_append] at h hd ⊢
    have hkey := ih e.1 (by simp) o h.left (by omega)
    have hvalue := ih e.2 (by simp) _ h.right.left (by omega)
    have hrest := ihm (fun w hw => ih w (by simp [hw])) h.right.right (by omega)
    rw [List.length_cons,repeatEnd,hkey,← Nat.add_assoc,← Nat.add_assoc]
    show (itemEnd data depth _ >>= fun c => repeatEnd _ m.length c) = _
    rw [hvalue]
    exact hrest

/-- By induction on the value; every member of an array or a map is shorter than the whole,
so the depth that is left suffices for it. No tag is ever written. -/
theorem itemEnd_at (hd : data.length < 2^64) (v : Value) : ∀ depth, Walks data depth v := by
  induction v using Value.members_induction with
  | null =>
    intro depth o h hdepth
    cases depth with
    | zero => exact walks_zero data _ o h hdepth
    | succ depth => exact itemEnd_simple (i := 22) (m := 0) (by omega) (by simp) h
  | bool b =>
    intro depth o h hdepth
    cases depth with
    | zero => exact walks_zero data _ o h hdepth
    | succ depth =>
      cases b with
      | false => exact itemEnd_simple (i := 20) (m := 0) (by omega) (by simp) h
      | true => exact itemEnd_simple (i := 21) (m := 0) (by omega) (by simp) h
  | integer i =>
    intro depth o h hdepth
    have hi := i.inRange
    cases depth with
    | zero => exact walks_zero data _ o h hdepth
    | succ depth =>
      rw [encodeValue,encodeInteger_eq] at h ⊢
      split_ifs at h ⊢
      · exact itemEnd_head IsMajor.unsigned (by simp) (by omega) h
      · exact itemEnd_head IsMajor.negative (by simp) (by omega) h
  | float f =>
    intro depth o h hdepth
    cases depth with
    | zero => exact walks_zero data _ o h hdepth
    | succ depth =>
      rw [encodeValue] at h ⊢
      rcases encodeFloat_cases f with ⟨a,ha,_⟩ | ⟨a,ha,_⟩ | ha
      · rw [ha] at h ⊢
        exact itemEnd_simple (i := 25) (by omega) a.toNat_lt h
      · rw [ha] at h ⊢
        exact itemEnd_simple (i := 26) (by omega) a.toNat_lt h
      · rw [ha] at h ⊢
        exact itemEnd_simple (i := 27) (by omega) f.toNat_lt h
  | bytes b =>
    intro depth o h hdepth
    cases depth with
    | zero => exact walks_zero data _ o h hdepth
    | succ depth => exact itemEnd_payload IsMajor.bytes (by simp) hd h
  | text s =>
    intro depth o h hdepth
    cases depth with
    | zero => exact walks_zero data _ o h hdepth
    | succ depth => exact itemEnd_payload IsMajor.text (by simp) hd h
  | array vs ih =>
    intro depth o h hdepth
    cases depth with
    | zero => exact walks_zero data _ o h hdepth
    | succ depth =>
      rw [encodeValue,encodeItems_eq] at h hdepth ⊢
      have hcount := length_le_flatMap vs
      have hbound := h.right.bound
      have hhead := List.length_pos_iff.mpr (encodeHead_ne_nil majorArray vs.length)
      have hparse := parseCborHead_at IsMajor.array (by omega) h.left
      rw [List.length_append] at hdepth
      have hitems := repeatEnd_items (fun v hv => ih v hv depth) h.right (by omega)
      rw [itemEnd,hparse,List.length_append,← Nat.add_assoc]
      exact hitems
  | map m ih =>
    intro depth o h hdepth
    cases depth with
    | zero => exact walks_zero data _ o h hdepth
    | succ depth =>
      have hperm := List.perm_insertionSort encodedLe m
      rw [encodeValue,encodeMap_eq,← hperm.length_eq] at h hdepth ⊢
      generalize m.insertionSort encodedLe = es at hperm h hdepth ⊢
      have hcount := length_le_flatMap (flatten es)
      rw [flatten_length] at hcount
      have hbound := h.right.bound
      have hhead := List.length_pos_iff.mpr (encodeHead_ne_nil majorMap es.length)
      have hparse := parseCborHead_at IsMajor.map (by omega) h.left
      rw [List.length_append] at hdepth
      have hmembers : ∀ v ∈ flatten es, Walks data depth v := by
        intro v hvm
        obtain ⟨e,he,hve⟩ := mem_flatten hvm
        have hem := hperm.mem_iff.mp he
        rcases hve with rfl | rfl
        · exact (ih e hem).1 depth
        · exact (ih e hem).2 depth
      have hitems := repeatEnd_pairs hmembers h.right (by omega)
      rw [itemEnd,hparse,List.length_append,← Nat.add_assoc]
      exact hitems
  | tag t v ih => exact ih

theorem cborItemEnd_at {v : Value} (hd : data.length < 2^64) (h : At data o (encodeValue v)) :
    cborItemEnd data o = .ok (o+(encodeValue v).length) := by
  have hb := h.bound
  exact itemEnd_at hd v (data.length+1) o h (by omega)

/-! The readers. -/

theorem fromUtf8_utf8 (s : Str) : fromUtf8 (utf8 s) = some s := by
  have hb : (utf8 s).toByteArray = s.utf8Encode := by simp [List.utf8Encode,utf8]
  rw [fromUtf8,hb,List.utf8Decode?_utf8Encode]
  simp

theorem ok_bind {ε α β : Type} (a : α) (f : α → Except ε β) : (Except.ok a >>= f) = f a := rfl

theorem decodeCborText_at {s : Str} (hd : data.length < 2^64) (h : At data o (encodeCborText s)) :
    decodeCborText data o = .ok (s,o+(encodeCborText s).length) := by
  rw [encodeCborText] at h ⊢
  have hb := h.right.bound
  have hparse := parseCborHead_at IsMajor.text (by omega) h.left
  have hend := payloadEnd_at "text" hd h.right
  rw [decodeCborText,hparse,List.length_append,← Nat.add_assoc]
  show (payloadEnd data "text" _ _ >>= _) = _
  rw [hend,ok_bind,h.right.slice,fromUtf8_utf8]
  rfl

theorem decodeCborBytes_at {b : Bytes} (hd : data.length < 2^64)
    (h : At data o (encodeCborBstr b)) :
    decodeCborBytes data o = .ok (b,o+(encodeCborBstr b).length) := by
  rw [encodeCborBstr] at h ⊢
  have hb := h.right.bound
  have hparse := parseCborHead_at IsMajor.bytes (by omega) h.left
  have hend := payloadEnd_at "bytes" hd h.right
  rw [decodeCborBytes,hparse,List.length_append,← Nat.add_assoc]
  show (payloadEnd data "bytes" _ _ >>= _) = _
  rw [hend]
  show Except.ok (slice data _ _,_) = _
  rw [h.right.slice]

theorem mapHead_at (expected : String) (hn : n < 2^64) (h : At data o (encodeHead majorMap n)) :
    mapHead data o expected = .ok (n,(encodeHead majorMap n).length) := by
  rw [mapHead,parseCborHead_at IsMajor.map hn h]
  rfl

/-- One field is read, and the walk goes on behind it. -/
theorem walkFields_at {σ : Type} {onField : σ → Str → ℕ → ℕ → Except WireError σ}
    {key : Str} {v : Value} {c : ℕ} {fields fields' : σ} (hd : data.length < 2^64)
    (h : At data c (encodeCborText key++encodeValue v))
    (hf : onField fields key (c+(encodeCborText key).length)
      (c+(encodeCborText key).length+(encodeValue v).length) = .ok fields') :
    walkFields data onField (n+1) c fields =
      walkFields data onField n (c+(encodeCborText key++encodeValue v).length) fields' := by
  rw [walkFields,decodeCborText_at hd h.left]
  show (cborItemEnd data _ >>= _) = _
  rw [cborItemEnd_at hd h.right]
  show (onField fields key _ _ >>= _) = _
  rw [hf,List.length_append,Nat.add_assoc]
  rfl

/-! Entities. -/

/-- The value an entity is on the wire. -/
def entityValue (e : Entity) (data : Value) : Value :=
  .map [(.text "type".toList,.text e.entityType),(.text "data".toList,data),
    (.text "content_hash".toList,.bytes e.contentHash.toBytes)]

theorem encodeEntity_eq {e : Entity} {v : Value} (hv : e.data = toEcf v) :
    encodeEntity e = encodeHead majorMap 3++((encodeCborText "data".toList++encodeValue v)++
      ((encodeCborText "type".toList++encodeValue (.text e.entityType))++
      (encodeCborText "content_hash".toList++encodeValue (.bytes e.contentHash.toBytes)))) := by
  have hhead : encodeHead majorMap 3 = [0xA3] := by decide
  simp [encodeEntity,hhead,hv,toEcf,encodeValue]

theorem keys_sorted : keyLe (encodeCborText "data".toList) (encodeCborText "type".toList) ∧
    keyLe (encodeCborText "data".toList) (encodeCborText "content_hash".toList) ∧
    keyLe (encodeCborText "type".toList) (encodeCborText "content_hash".toList) ∧
    ¬ keyLe (encodeCborText "type".toList) (encodeCborText "data".toList) ∧
    keyLe (encodeCborText "root".toList) (encodeCborText "included".toList) := by
  decide +kernel

/-- The hand-written order of the fields is the canonical one. -/
theorem encodeEntity_canonical {e : Entity} {v : Value} (hv : e.data = toEcf v) :
    encodeEntity e = toEcf (entityValue e v) := by
  have hk := keys_sorted
  have hsort : [(Value.text "type".toList,Value.text e.entityType),(.text "data".toList,v),
      (.text "content_hash".toList,.bytes e.contentHash.toBytes)].insertionSort encodedLe =
      [(Value.text "data".toList,v),(.text "type".toList,Value.text e.entityType),
      (.text "content_hash".toList,.bytes e.contentHash.toBytes)] := by
    simp only [List.insertionSort_cons,List.insertionSort_nil,List.orderedInsert,encodedLe,
      encodeValue,hk,if_true,if_false]
  rw [encodeEntity_eq hv]
  show _ = encodeMap (encodeEntries _)
  rw [encodeMap_eq,hsort]
  simp [flatten,encodeValue]

section Decode

variable {e : Entity} {v : Value} (hv : e.data = toEcf v)
  (hd : (encodeEntity e).length < 2^64)
include hv hd

/-- A decoder that takes the three fields as they come meets each of them in its place. -/
theorem walkEntity {σ : Type} (expected : String) (onField : σ → Str → ℕ → ℕ → Except WireError σ)
    (start withData withType withHash : σ)
    (hfirst : ∀ o, At (encodeEntity e) o (encodeValue v) →
      onField start "data".toList o (o+(encodeValue v).length) = .ok withData)
    (hsecond : ∀ o stop, At (encodeEntity e) o (encodeCborText e.entityType) →
      onField withData "type".toList o stop = .ok withType)
    (hthird : ∀ o stop, At (encodeEntity e) o (encodeCborBstr e.contentHash.toBytes) →
      onField withType "content_hash".toList o stop = .ok withHash) :
    ∃ headSize, mapHead (encodeEntity e) 0 expected = .ok (3,headSize) ∧
      walkFields (encodeEntity e) onField 3 headSize start = .ok withHash := by
  have hall := at_zero (encodeEntity_eq hv)
  have hfields := hall.right
  rw [Nat.zero_add] at hfields
  refine ⟨_,mapHead_at expected (by norm_num) hall.left,?_⟩
  rw [walkFields_at hd hfields.left (hfirst _ hfields.left.right),
    walkFields_at hd hfields.right.left (hsecond _ _ hfields.right.left.right),
    walkFields_at hd hfields.right.right (hthird _ _ hfields.right.right.right)]
  rfl

theorem decodeEntity_encodeEntity : decodeEntity (encodeEntity e) = .ok e := by
  have hwalk := walkEntity hv hd "expected CBOR map for entity" (entityField (encodeEntity e))
    ⟨none,none,none⟩ ⟨none,some e.data,none⟩ ⟨some e.entityType,some e.data,none⟩
    ⟨some e.entityType,some e.data,some e.contentHash⟩
  have ⟨headSize,hhead,hfields⟩ := hwalk
    (by
      intro o h
      rw [entityField,if_neg (by decide),if_pos rfl,h.slice,hv]
      rfl)
    (by
      intro o stop h
      rw [entityField,if_pos rfl,decodeCborText_at hd h]
      rfl)
    (by
      intro o stop h
      rw [entityField,if_neg (by decide),if_neg (by decide),if_pos rfl,decodeCborBytes_at hd h]
      show (mapErr _ (Hash.fromBytes _) >>= _) = _
      rw [Hash.fromBytes_toBytes]
      rfl)
  rw [decodeEntity,hhead]
  show (walkFields (encodeEntity e) (entityField (encodeEntity e)) 3 headSize _ >>= _) = _
  rw [hfields]
  rfl

theorem decodeEntityParts_encodeEntity :
    decodeEntityParts (encodeEntity e) = .ok (e.entityType,e.data) := by
  have hwalk := walkEntity hv hd "expected CBOR map for entity" (partsField (encodeEntity e))
    (none,none) (none,some e.data) (some e.entityType,some e.data) (some e.entityType,some e.data)
  have ⟨headSize,hhead,hfields⟩ := hwalk
    (by
      intro o h
      rw [partsField,if_neg (by decide),if_pos rfl,h.slice,hv]
      rfl)
    (by
      intro o stop h
      rw [partsField,if_pos rfl,decodeCborText_at hd h]
      rfl)
    (by
      intro o stop h
      rw [partsField,if_neg (by decide),if_neg (by decide)]
      rfl)
  rw [decodeEntityParts,hhead]
  show (walkFields (encodeEntity e) (partsField (encodeEntity e)) 3 headSize _ >>= _) = _
  rw [hfields]
  rfl

end Decode

/-! Envelopes. -/

/-- Included entities under the encodings of their hashes. -/
def includedValue (value : Entity → Value) (included : OrderedMap Hash Entity) : Value :=
  .map (included.entries.map fun kv => (.bytes kv.1.toBytes,entityValue kv.2 (value kv.2)))

/-- The value an envelope is on the wire. -/
def envelopeValue (value : Entity → Value) (env : Envelope) : Value :=
  .map ((.text "root".toList,entityValue env.root (value env.root))::
    if env.included.entries = [] then []
    else [(.text "included".toList,includedValue value env.included)])

/-- The order of hashes is the canonical order of the keys they become: shorter digests
belong to the smaller format code. -/
theorem keyLe_of_hash_lt {g h : Hash} (hlt : g < h) :
    keyLe (encodeCborBstr g.toBytes) (encodeCborBstr h.toBytes) := by
  have hcons : g.algorithm::g.digest < h.algorithm::h.digest := hlt
  have hlen : ∀ k : Hash, (encodeCborBstr k.toBytes).length =
      (encodeHead majorBytes (k.digest.length+1)).length+k.digest.length+1 := by
    intro k
    rw [encodeCborBstr,Hash.toBytes_eq,List.length_append,List.length_cons]
    rfl
  have hthree : (encodeHead majorBytes (32+1)).length = 2 := by decide
  have hfour : (encodeHead majorBytes (48+1)).length = 2 := by decide
  have hsame : g.digest.length = h.digest.length →
      keyLe (encodeCborBstr g.toBytes) (encodeCborBstr h.toBytes) := by
    intro hl
    rw [encodeCborBstr,encodeCborBstr,Hash.toBytes_eq,Hash.toBytes_eq,List.length_cons,
      List.length_cons,hl]
    exact .inr ⟨by simp [hl],(List.append_left_lt hcons).le⟩
  rcases g.algorithm_cases with ⟨hg,hgl⟩ | ⟨hg,hgl⟩
  · rcases h.algorithm_cases with ⟨hh,hhl⟩ | ⟨hh,hhl⟩
    · exact hsame (by rw [hgl,hhl])
    · left
      rw [hlen g,hlen h,hgl,hhl,hthree,hfour]
      omega
  · rcases h.algorithm_cases with ⟨hh,hhl⟩ | ⟨hh,hhl⟩
    · rw [hg,hh] at hcons
      exact absurd hcons (by simp [List.cons_lt_cons_iff])
    · exact hsame (by rw [hgl,hhl])

section Envelope

variable {value : Entity → Value}

/-- What an entity needs to travel: its data is the encoding of a tag-free value. -/
def Sendable (value : Entity → Value) (e : Entity) : Prop :=
  TagFree (value e) ∧ e.data = toEcf (value e)

theorem Sendable.encode {e : Entity} (h : Sendable value e) :
    encodeEntity e = encodeValue (entityValue e (value e)) := encodeEntity_canonical h.2

/-- An entity inside a longer text is read from its range. -/
theorem Sendable.decode {e : Entity} (h : Sendable value e)
    (hd : data.length < 2^64) (ha : At data o (encodeEntity e)) :
    cborItemEnd data o = .ok (o+(encodeEntity e).length) ∧
      decodeEntity (slice data o (o+(encodeEntity e).length)) = .ok e := by
  have hb := ha.bound
  constructor
  · rw [h.encode] at ha ⊢
    exact cborItemEnd_at hd ha
  · rw [ha.slice]
    exact decodeEntity_encodeEntity h.2 (by omega)

def encodeIncluded (kv : Hash × Entity) : Bytes :=
  encodeCborBstr kv.1.toBytes++encodeEntity kv.2

theorem decodeIncluded_at (hd : data.length < 2^64) (l : List (Hash × Entity))
    (hs : ∀ kv ∈ l, Sendable value kv.2 ∧ kv.2.contentHash = kv.1) (c : ℕ)
    (m : OrderedMap Hash Entity) (h : At data c (l.flatMap encodeIncluded)) :
    decodeIncluded data l.length c m = .ok (l.foldl (fun m kv => m.insert kv.1 kv.2) m) := by
  induction l generalizing c m with
  | nil => rfl
  | cons kv l ih =>
    have ⟨hsend,hkey⟩ := hs kv (by simp)
    rw [List.flatMap_cons] at h
    have hhash := decodeCborBytes_at hd h.left.left
    have hentity := hsend.decode hd h.left.right
    have hrest := ih (fun kv hkv => hs kv (by simp [hkv])) _ (m.insert kv.1 kv.2) h.right
    rw [List.length_cons,decodeIncluded,hhash]
    show (mapErr _ (Hash.fromBytes kv.1.toBytes) >>= _) = _
    rw [Hash.fromBytes_toBytes]
    show (cborItemEnd data _ >>= _) = _
    rw [hentity.1,ok_bind,hentity.2]
    show (if kv.1 ≠ kv.2.contentHash then _ else _) = _
    rw [if_neg (not_not.mpr hkey.symm),List.foldl_cons,← hrest]
    rw [encodeIncluded,List.length_append,Nat.add_assoc]

theorem encodeIncluded_canonical {m : OrderedMap Hash Entity}
    (hs : ∀ kv ∈ m.entries, Sendable value kv.2) :
    encodeHead majorMap m.entries.length++m.entries.flatMap encodeIncluded =
      encodeValue (includedValue value m) := by
  have hsorted : (m.entries.map fun kv => (Value.bytes kv.1.toBytes,
      entityValue kv.2 (value kv.2))).Pairwise encodedLe := by
    rw [List.pairwise_map]
    exact m.sorted.imp fun hlt => keyLe_of_hash_lt hlt
  rw [includedValue]
  show _ = encodeMap (encodeEntries _)
  rw [encodeMap_eq,hsorted.insertionSort_eq,List.length_map]
  congr 1
  generalize m.entries = l at hs
  induction l with
  | nil => rfl
  | cons kv l ih =>
    have hone := (hs kv (by simp)).encode
    have hrest := ih fun kv hkv => hs kv (by simp [hkv])
    rw [List.flatMap_cons,hrest,encodeIncluded,hone]
    simp [flatten,encodeValue]

theorem encodeEnvelope_canonical (env : Envelope) (hroot : Sendable value env.root)
    (hs : ∀ kv ∈ env.included.entries, Sendable value kv.2) :
    encodeEnvelope env = toEcf (envelopeValue value env) := by
  show _ = encodeMap (encodeEntries _)
  rw [encodeMap_eq,encodeEnvelope]
  by_cases hnil : env.included.entries = []
  · have hhead : encodeHead majorMap 1 = [0xA1] := by decide
    simp [hnil,flatten,encodeValue,hroot.encode,hhead]
  · have hhead : encodeHead majorMap 2 = [0xA2] := by decide
    have hkeys := keys_sorted
    have hincluded := encodeIncluded_canonical hs
    have hsort : [(Value.text "root".toList,entityValue env.root (value env.root)),
        (.text "included".toList,includedValue value env.included)].insertionSort encodedLe =
        [(Value.text "root".toList,entityValue env.root (value env.root)),
        (.text "included".toList,includedValue value env.included)] := by
      simp only [List.insertionSort_cons,List.insertionSort_nil,List.orderedInsert,encodedLe,
        encodeValue,hkeys,if_true]
    rw [if_neg hnil,if_neg hnil,hsort]
    simp only [flatten,List.flatMap_cons,List.flatMap_nil,List.append_nil,List.cons_append,
      List.nil_append,← hincluded,hroot.encode,List.length_cons,List.length_nil,hhead]
    simp only [encodeValue,List.cons_append,List.nil_append,List.append_assoc]
    rfl

theorem length_le_encodeIncluded {l : List (Hash × Entity)} {kv : Hash × Entity} (h : kv ∈ l) :
    (encodeEntity kv.2).length ≤ (l.flatMap encodeIncluded).length := by
  have hone := List.single_le_sum (l := l.map fun kv => (encodeIncluded kv).length) (by simp) _
    (List.mem_map_of_mem h)
  rw [List.length_flatMap]
  have hpart : (encodeEntity kv.2).length ≤ (encodeIncluded kv).length := by
    rw [encodeIncluded,List.length_append]
    omega
  omega

theorem count_le_encodeIncluded (l : List (Hash × Entity)) :
    l.length ≤ (l.flatMap encodeIncluded).length := by
  induction l with
  | nil => exact le_rfl
  | cons kv l ih =>
    have hne := List.length_pos_iff.mpr (encodeHead_ne_nil majorBytes kv.1.toBytes.length)
    have hpos : 1 ≤ (encodeIncluded kv).length := by
      rw [encodeIncluded,encodeCborBstr,List.length_append,List.length_append]
      omega
    rw [List.flatMap_cons,List.length_append,List.length_cons]
    omega

section Fields

variable {env : Envelope} (hroot : Sendable value env.root)
  (hs : ∀ kv ∈ env.included.entries, Sendable value kv.2) {data : Bytes} (hd : data.length < 2^64)
  {c n : ℕ}
include hd

include hroot in
theorem rootField_at (h : At data c (encodeCborText "root".toList++encodeEntity env.root)) :
    walkFields data (envelopeField data) (n+1) c (none,.empty) = walkFields data (envelopeField data)
      n (c+(encodeCborText "root".toList++encodeEntity env.root).length) (some env.root,.empty) := by
  have hdecode := (hroot.decode hd h.right).2
  rw [hroot.encode] at h hdecode ⊢
  have hfield : envelopeField data (none,.empty) "root".toList
      (c+(encodeCborText "root".toList).length) (c+(encodeCborText "root".toList).length+
        (encodeValue (entityValue env.root (value env.root))).length) =
      .ok (some env.root,.empty) := by
    rw [envelopeField,if_pos rfl,hdecode]
    rfl
  exact walkFields_at hd h hfield

include hs in
theorem includedField_at (hk : ContentAddressed env.included) {root : Option Entity}
    (h : At data c (encodeCborText "included".toList++
      encodeValue (includedValue value env.included))) :
    walkFields data (envelopeField data) 1 c (root,.empty) = .ok (root,env.included) := by
  have hfile : ∀ kv ∈ env.included.entries, Sendable value kv.2 ∧ kv.2.contentHash = kv.1 :=
    fun kv hkv => ⟨hs kv hkv,hk kv.1 kv.2 ((OrderedMap.mem_entries _ _ _).mp hkv)⟩
  have hmap := h.right
  rw [← encodeIncluded_canonical hs] at hmap
  have hbound := hmap.right.bound
  have hcount := count_le_encodeIncluded env.included.entries
  have hfield : envelopeField data (root,.empty) "included".toList
      (c+(encodeCborText "included".toList).length) (c+(encodeCborText "included".toList).length+
        (encodeValue (includedValue value env.included)).length) = .ok (root,env.included) := by
    rw [envelopeField,if_neg (by decide),if_pos rfl,mapHead_at _ (by omega) hmap.left]
    show (decodeIncluded _ _ _ _ >>= _) = _
    rw [decodeIncluded_at hd _ hfile _ _ hmap.right]
    show Except.ok (root,OrderedMap.ofList env.included.entries) = _
    rw [OrderedMap.ofList_entries]
  rw [walkFields_at hd h hfield]
  rfl

end Fields

theorem decodeEnvelope_encodeEnvelope (env : Envelope) (hk : ContentAddressed env.included)
    (hroot : Sendable value env.root) (hs : ∀ kv ∈ env.included.entries, Sendable value kv.2)
    (hd : (encodeEnvelope env).length < 2^64) : decodeEnvelope (encodeEnvelope env) = .ok env := by
  by_cases hnil : env.included.entries = []
  · have hempty : env.included = .empty := by
      rw [← OrderedMap.ofList_entries env.included,hnil]
      rfl
    have hhead : encodeHead majorMap 1 = [0xA1] := by decide
    have hat : At (encodeEnvelope env) 0
        (encodeHead majorMap 1++(encodeCborText "root".toList++encodeEntity env.root)) := by
      apply at_zero
      rw [encodeEnvelope,if_pos hnil,hhead]
      rfl
    rw [decodeEnvelope,mapHead_at _ (by norm_num) hat.left]
    show (walkFields (encodeEnvelope env) _ 1 _ _ >>= _) = _
    have hbody := hat.right
    rw [Nat.zero_add] at hbody
    rw [rootField_at hroot hd hbody]
    show Except.ok (Envelope.mk env.root .empty) = _
    rw [← hempty]
  · have hhead : encodeHead majorMap 2 = [0xA2] := by decide
    have hat : At (encodeEnvelope env) 0 (encodeHead majorMap 2++
        ((encodeCborText "root".toList++encodeEntity env.root)++
        (encodeCborText "included".toList++encodeValue (includedValue value env.included)))) := by
      apply at_zero
      rw [encodeEnvelope,if_neg hnil,hhead,← encodeIncluded_canonical hs]
      simp only [List.cons_append,List.nil_append,List.append_assoc]
      rfl
    rw [decodeEnvelope,mapHead_at _ (by norm_num) hat.left]
    show (walkFields (encodeEnvelope env) _ 2 _ _ >>= _) = _
    have hbody := hat.right
    rw [Nat.zero_add] at hbody
    rw [rootField_at hroot hd hbody.left,includedField_at hs hd hk hbody.right]
    rfl

theorem length_le_encodeEnvelope {env : Envelope} {e : Entity}
    (he : e ∈ env.root::env.included.values) :
    (encodeEntity e).length ≤ (encodeEnvelope env).length := by
  rcases List.mem_cons.mp he with rfl | he
  · rw [encodeEnvelope]
    split_ifs
    all_goals simp only [List.length_append,List.length_cons]
    all_goals omega
  · obtain ⟨kv,hkv,rfl⟩ := List.mem_map.mp he
    have hpart := length_le_encodeIncluded hkv
    have hne : env.included.entries ≠ [] := List.ne_nil_of_mem hkv
    rw [encodeEnvelope,if_neg hne]
    show _ ≤ (_++(_++(_++env.included.entries.flatMap encodeIncluded))).length
    simp only [List.length_append,List.length_cons]
    omega

end Envelope

theorem envelope_survives (env : Envelope) (value : Entity → Value)
    (hk : ContentAddressed env.included)
    (hs : ∀ e ∈ env.root::env.included.values, TagFree (value e) ∧ e.data = toEcf (value e))
    (hd : (encodeEnvelope env).length < 2^64) : decodeEnvelope (encodeEnvelope env) = .ok env ∧
    (∀ e ∈ env.root::env.included.values, decodeEntity (encodeEntity e) = .ok e ∧
      decodeEntityParts (encodeEntity e) = .ok (e.entityType,e.data)) ∧
    encodeEnvelope env = toEcf (envelopeValue value env) := by
  have hroot : Sendable value env.root := hs env.root (by simp)
  have hincluded : ∀ kv ∈ env.included.entries, Sendable value kv.2 := by
    intro kv hkv
    exact hs kv.2 (List.mem_cons_of_mem _ (List.mem_map_of_mem (f := Prod.snd) hkv))
  refine ⟨decodeEnvelope_encodeEnvelope env hk hroot hincluded hd,?_,
    encodeEnvelope_canonical env hroot hincluded⟩
  intro e he
  have ⟨_,hv⟩ := hs e he
  have hl := (length_le_encodeEnvelope he).trans_lt hd
  exact ⟨decodeEntity_encodeEntity hv hl,decodeEntityParts_encodeEntity hv hl⟩

section Sample

open EntityCore.Sample

/-- The documents of two peers. -/
def sampleValue (e : Entity) : Value :=
  if e = alice then peerValue aliceKey else peerValue bobKey

def sampleEnvelope : Envelope := ⟨alice,.ofList [(bob.contentHash,bob)]⟩

theorem peerValue_tagFree (key : Bytes) : TagFree (peerValue key) := by
  apply TagFree.map
  · intro kv hkv
    simp only [List.mem_cons,List.not_mem_nil,or_false] at hkv
    rcases hkv with rfl | rfl
    all_goals exact .text _
  · intro kv hkv
    simp only [List.mem_cons,List.not_mem_nil,or_false] at hkv
    rcases hkv with rfl | rfl
    · exact .text _
    · exact .bytes _

theorem envelope_survives_sample :
    decodeEnvelope (encodeEnvelope sampleEnvelope) = .ok sampleEnvelope := by
  have hk : ContentAddressed sampleEnvelope.included := by
    intro k e h
    have hm : (k,e) ∈ [(bob.contentHash,bob)] := (OrderedMap.mem_entries _ _ _).mpr h
    simp only [List.mem_singleton,Prod.mk.injEq] at hm
    rw [hm.1,hm.2]
  refine (envelope_survives sampleEnvelope sampleValue hk ?_ (by decide +kernel)).1
  intro e he
  have hm : e = alice ∨ e = bob := by
    have hcases : e ∈ [alice,bob] := he
    simpa using hcases
  rcases hm with rfl | rfl
  · exact ⟨peerValue_tagFree aliceKey,rfl⟩
  · have hne : bob ≠ alice := by decide
    have hv : sampleValue bob = peerValue bobKey := if_neg hne
    rw [hv]
    exact ⟨peerValue_tagFree bobKey,rfl⟩

end Sample

end Wire
end EntityCore
