import NetworkDemo.Rpc.Protocol
import Mathlib.Algebra.Order.Group.Nat
import Mathlib.Algebra.Ring.Nat

/-!
# The binary protocol

The service's clients and servers are built with `TBinaryProtocol`. The class is the
library's; here is its wire format, as far as the messages of a service go: integers are
big-endian, a string follows its length, a message's header is marked as version 1, and
structs have no brackets. It keeps the laws that the generated code relies on
(`binary_lawful`).
-/

namespace NetworkDemo.Rpc

open Foundations Foundations.Reader

/-- `uint8_t`. -/
abbrev Byte := BitVec 8

/-! ### Integers -/

/-- A number in `n` bytes. -/
def toBytes : ℕ → ℕ → List Byte
  | 0, _ => []
  | n + 1, v => toBytes n (v / 256) ++ [BitVec.ofNat 8 v]

/-- The number that bytes make. -/
def ofBytes (bs : List Byte) : ℕ := bs.foldl (fun v b => v * 256 + b.toNat) 0

theorem length_toBytes (n v : ℕ) : (toBytes n v).length = n := by
  induction n generalizing v with
  | zero => rfl
  | succ n ih => simp [toBytes, ih]

theorem ofBytes_toBytes {n v : ℕ} (h : v < 256 ^ n) : ofBytes (toBytes n v) = v := by
  induction n generalizing v with
  | zero => simp_all [ofBytes, toBytes]
  | succ n ih =>
    have hdiv : v / 256 < 256 ^ n := by
      rw [Nat.div_lt_iff_lt_mul (by decide), ← Nat.pow_succ]
      exact h
    have hrest := ih hdiv
    rw [ofBytes] at hrest
    rw [ofBytes, toBytes, List.foldl_append, hrest, List.foldl_cons, List.foldl_nil,
      BitVec.toNat_ofNat]
    exact Nat.div_add_mod' v 256

/-- Take `n` bytes. -/
def readBytes (n : ℕ) : Read Byte (List Byte) := fun bs =>
  if n ≤ bs.length then (.ok (bs.take n), BitVec.ofNat 32 n, bs.drop n)
  else (.error (.transport "No more data to read."), xfer bs, [])

theorem reads_bytes (bs : List Byte) : Reads (readBytes bs.length) bs (.ok bs) := by
  intro rest
  simp [readBytes, xfer]

theorem readBytes_shrinks (n : ℕ) : Shrinks (readBytes n) := by
  intro bs
  unfold readBytes
  split_ifs <;> simp

theorem readBytes_takes {n : ℕ} (hn : 0 < n) : Takes (readBytes n) fun _ => True := by
  intro bs x m rest h _
  unfold readBytes at h
  split_ifs at h with hle
  · obtain ⟨-, -, rfl⟩ := Prod.mk.inj h |>.imp_right Prod.mk.inj
    rw [List.length_drop]
    omega
  · simp at h

/-- `readI32` and the like. -/
def readInt (n : ℕ) : Read Byte ℕ := do
  let bs ← readBytes n
  return ofBytes bs

theorem reads_int {n v : ℕ} (h : v < 256 ^ n) : Reads (readInt n) (toBytes n v) (.ok v) := by
  have hb := reads_bytes (toBytes n v)
  rw [length_toBytes] at hb
  refine hb.bind_nil ?_
  rw [ofBytes_toBytes h]
  exact Reads.pure v

theorem reads_bitVec {n w : ℕ} (v : BitVec w) (hw : 2 ^ w = 256 ^ n) :
    Reads (readInt n) (toBytes n v.toNat) (.ok v.toNat) :=
  reads_int (hw ▸ v.isLt)

theorem readInt_shrinks (n : ℕ) : Shrinks (readInt n) :=
  (readBytes_shrinks n).bind fun _ => Shrinks.pure _

/-! ### Strings -/

/-- `readStringBody`. -/
def readStringBody (size : ℕ) : Read Byte String := do
  let bs ← readBytes size
  return String.ofList (bs.map fun b => Char.ofNat b.toNat)

/-- The characters of a string, a byte each. -/
def writeStringBody (s : String) : List Byte := s.toList.map fun c => BitVec.ofNat 8 c.toNat

/-- `writeString`. -/
def binaryWriteString (s : String) : List Byte := toBytes 4 s.toList.length ++ writeStringBody s

/-- `readString`. -/
def binaryReadString : Read Byte String := do
  let size ← readInt 4
  if 2 ^ 31 ≤ size then fail (.protocol .negativeSize) else readStringBody size

/-- The strings that can be sent: of characters that are bytes, and not too long. -/
def BinaryCarries (s : String) : Prop := (∀ c ∈ s.toList, c.toNat < 256) ∧ s.toList.length < 2 ^ 31

instance (s : String) : Decidable (BinaryCarries s) :=
  @instDecidableAnd _ _ (List.decidableBAll (fun c => c.toNat < 256) s.toList) (Nat.decLt _ _)

theorem reads_stringBody {s : String} (h : ∀ c ∈ s.toList, c.toNat < 256) :
    Reads (readStringBody s.toList.length) (writeStringBody s) (.ok s) := by
  have hb := reads_bytes (writeStringBody s)
  rw [writeStringBody, List.length_map] at hb
  refine hb.bind_nil ?_
  have hmap : (writeStringBody s).map (fun b => Char.ofNat b.toNat) = s.toList := by
    rw [writeStringBody, List.map_map]
    refine (List.map_congr_left fun c hc => ?_).trans (List.map_id _)
    simp [Nat.mod_eq_of_lt (h c hc)]
  rw [← writeStringBody, hmap, String.ofList_toList]
  exact Reads.pure s

theorem reads_string {s : String} (h : BinaryCarries s) :
    Reads binaryReadString (binaryWriteString s) (.ok s) := by
  refine (reads_int (h.2.trans (by decide))).bind ?_
  rw [if_neg (Nat.not_le.mpr h.2)]
  exact reads_stringBody h.1

theorem readStringBody_shrinks (size : ℕ) : Shrinks (readStringBody size) :=
  (readBytes_shrinks size).bind fun _ => Shrinks.pure _

theorem readString_shrinks : Shrinks binaryReadString := by
  refine (readInt_shrinks 4).bind fun size => ?_
  split_ifs
  · exact Shrinks.fail _
  · exact readStringBody_shrinks size

/-! ### Headers -/

/-- The number of a message's type. -/
def TMessageType.code : TMessageType → ℕ
  | .call => 1
  | .reply => 2
  | .exception => 3
  | .oneway => 4

/-- Numbers that are no type are told from the types by nothing that reads them. -/
def TMessageType.ofCode : ℕ → TMessageType
  | 2 => .reply
  | 3 => .exception
  | 4 => .oneway
  | _ => .call

/-- The number of a type. -/
def TType.code : TType → ℕ
  | .stop => 0
  | .void => 1
  | .bool => 2
  | .byte => 3
  | .double => 4
  | .i16 => 6
  | .i32 => 8
  | .i64 => 10
  | .string => 11
  | .struct => 12
  | .map => 13
  | .set => 14
  | .list => 15

/-- `skip` refuses a `void` as it does the numbers that are no type. -/
def TType.ofCode : ℕ → TType
  | 0 => .stop
  | 2 => .bool
  | 3 => .byte
  | 4 => .double
  | 6 => .i16
  | 8 => .i32
  | 10 => .i64
  | 11 => .string
  | 12 => .struct
  | 13 => .map
  | 14 => .set
  | 15 => .list
  | _ => .void

theorem TMessageType.ofCode_code (t : TMessageType) : ofCode t.code = t := by cases t <;> rfl

theorem TType.ofCode_code (t : TType) : ofCode t.code = t := by cases t <;> rfl

/-- `readMessageBegin`: a header of version 1, or one of the time before there were versions. -/
def binaryReadMessageBegin : Read Byte (String × TMessageType × I32) := do
  let sz ← readInt 4
  if 2 ^ 31 ≤ sz then
    if sz / 2 ^ 16 ≠ 0x8001 then fail (.protocol .badVersion) else
      let name ← binaryReadString
      let seqid ← readInt 4
      return (name, .ofCode (sz % 256), BitVec.ofNat 32 seqid)
  else
    let name ← readStringBody sz
    let type ← readInt 1
    let seqid ← readInt 4
    return (name, .ofCode type, BitVec.ofNat 32 seqid)

/-- `readFieldBegin`. -/
def binaryReadFieldBegin : Read Byte (TType × I16) := do
  let type ← readInt 1
  if type = 0 then return (.stop, 0) else
    let fid ← readInt 2
    return (.ofCode type, BitVec.ofNat 16 fid)

/-- The next field's type and id; none at a `T_STOP`. -/
def binaryNextField : Read Byte (Option (TType × I16)) := do
  let (ftype, fid) ← binaryReadFieldBegin
  if ftype = .stop then return none else return some (ftype, fid)

/-- `writeMessageBegin`, of a strict writer. -/
def binaryWriteMessageBegin (name : String) (mtype : TMessageType) (seqid : I32) : List Byte :=
  toBytes 4 (0x80010000 + mtype.code) ++ (binaryWriteString name ++ toBytes 4 seqid.toNat)

/-- `writeFieldBegin`. -/
def binaryWriteFieldBegin (ftype : TType) (fid : I16) : List Byte :=
  toBytes 1 ftype.code ++ toBytes 2 fid.toNat

/-! ### `skip` -/

/-- `for (i = 0; i < size; i++)`. -/
def repeatRead (r : Read Byte Unit) : ℕ → Read Byte Unit
  | 0 => return ()
  | n + 1 => do
    r
    repeatRead r n

/-- The size of a list, a set or a map. -/
def readSize : Read Byte ℕ := do
  let size ← readInt 4
  if 2 ^ 31 ≤ size then fail (.protocol .negativeSize) else return size

/-- `skip`, not deeper than the recursion limit. -/
def skipIn : ℕ → TType → Read Byte Unit
  | 0, _ => fail (.protocol .depthLimit)
  | depth + 1, ftype => match ftype with
    | .bool | .byte => do let _ ← readBytes 1
    | .i16 => do let _ ← readBytes 2
    | .i32 => do let _ ← readBytes 4
    | .i64 | .double => do let _ ← readBytes 8
    | .string => do let _ ← binaryReadString
    | .struct => readItems binaryNextField (fun _ head => skipIn depth head.1) .late ()
    | .map => do
      let key ← readInt 1
      let value ← readInt 1
      let size ← readSize
      repeatRead (do
        skipIn depth (.ofCode key)
        skipIn depth (.ofCode value)) size
    | .set | .list => do
      let elem ← readInt 1
      let size ← readSize
      repeatRead (skipIn depth (.ofCode elem)) size
    | .stop | .void => fail (.protocol .invalidData)

/-! ### The protocol -/

/-- The number of an exception's type. -/
def TApplicationExceptionType.code : TApplicationExceptionType → ℕ
  | .unknown => 0
  | .unknownMethod => 1
  | .badSequenceId => 4
  | .missingResult => 5

/-- The type of a number; those that the code does not name are `unknown`. -/
def TApplicationExceptionType.ofCode : ℕ → TApplicationExceptionType
  | 1 => .unknownMethod
  | 4 => .badSequenceId
  | 5 => .missingResult
  | _ => .unknown

theorem TApplicationExceptionType.ofCode_code (t : TApplicationExceptionType) :
    ofCode t.code = t := by cases t <;> rfl

/-- `TApplicationException::write`. -/
def binaryWriteException (x : TApplicationException) : List Byte :=
  ((binaryWriteFieldBegin .string 1 ++ binaryWriteString x.message) ++
    (binaryWriteFieldBegin .i32 2 ++ toBytes 4 x.type.code)) ++ toBytes 1 0

/-- The `switch (fid)` of `TApplicationException::read`. -/
def exceptionField (x : TApplicationException) (head : TType × I16) :
    Read Byte TApplicationException := do
  match head with
  | (.string, 1) => return { x with message := ← binaryReadString }
  | (.i32, 2) => return { x with type := .ofCode (← readInt 4) }
  | (ftype, _) =>
    skipIn 63 ftype
    return x

/-- `TBinaryProtocol`. -/
def binary : TProtocol Byte where
  writeMessageBegin := binaryWriteMessageBegin
  writeMessageEnd := []
  writeStructBegin _ := []
  writeStructEnd := []
  writeFieldBegin _ := binaryWriteFieldBegin
  writeFieldEnd := []
  writeFieldStop := toBytes 1 0
  writeI64 v := toBytes 8 v.toNat
  writeString := binaryWriteString
  writeException := binaryWriteException
  readMessageBegin := binaryReadMessageBegin
  readMessageEnd := return ()
  readStructBegin := return ()
  readStructEnd := return ()
  readFieldBegin := binaryReadFieldBegin
  readFieldEnd := return ()
  readI64 := do return BitVec.ofNat 64 (← readInt 8)
  readString := binaryReadString
  readException := readItems binaryNextField exceptionField .late ⟨.unknown, ""⟩
  skip := skipIn 64
  carries := BinaryCarries

theorem reads_messageBegin {name : String} (mtype : TMessageType) (seqid : I32)
    (h : BinaryCarries name) :
    Reads binaryReadMessageBegin (binaryWriteMessageBegin name mtype seqid)
      (.ok (name, mtype, seqid)) := by
  have hcode : mtype.code < 5 := by cases mtype <;> decide
  have hsz : 0x80010000 + mtype.code < 256 ^ 4 := by omega
  refine (reads_int hsz).bind ?_
  have hneg : 2 ^ 31 ≤ 0x80010000 + mtype.code := by omega
  have hver : (0x80010000 + mtype.code) / 2 ^ 16 = 0x8001 := by omega
  have htype : (0x80010000 + mtype.code) % 256 = mtype.code := by omega
  rw [if_pos hneg, if_neg (not_not.mpr hver), htype, TMessageType.ofCode_code]
  refine (reads_string h).bind ((reads_bitVec seqid (by decide)).bind_nil ?_)
  rw [BitVec.ofNat_toNat, BitVec.setWidth_eq]
  exact Reads.pure _

theorem reads_fieldBegin {ftype : TType} (fid : I16) (h : ftype ≠ .stop) :
    Reads binaryReadFieldBegin (binaryWriteFieldBegin ftype fid) (.ok (ftype, fid)) := by
  have hcode : 0 < ftype.code ∧ ftype.code < 256 ^ 1 := by
    cases ftype <;> first | exact absurd rfl h | decide
  refine (reads_int hcode.2).bind ?_
  rw [if_neg hcode.1.ne', TType.ofCode_code]
  refine (reads_bitVec fid (by decide)).bind_nil ?_
  rw [BitVec.ofNat_toNat, BitVec.setWidth_eq]
  exact Reads.pure _

theorem reads_fieldStop : Reads binaryReadFieldBegin (toBytes 1 0) (.ok (.stop, 0)) :=
  (reads_int (by decide)).bind_nil (Reads.pure _)

theorem readInt_takes {n : ℕ} (hn : 0 < n) : Takes (readInt n) fun _ => True :=
  (readBytes_takes hn).bind fun _ => Shrinks.pure _

theorem readMessageBegin_takes : Takes binaryReadMessageBegin fun _ => True := by
  refine (readInt_takes (by decide)).bind fun sz => ?_
  split_ifs
  · exact Shrinks.fail _
  · exact readString_shrinks.bind fun _ => (readInt_shrinks 4).bind fun _ => Shrinks.pure _
  · exact (readStringBody_shrinks sz).bind fun _ => (readInt_shrinks 1).bind fun _ =>
      (readInt_shrinks 4).bind fun _ =>
      Shrinks.pure _

theorem readFieldBegin_takes : Takes binaryReadFieldBegin fun _ => True := by
  refine (readInt_takes (by decide)).bind fun type => ?_
  split_ifs
  · exact Shrinks.pure _
  · exact (readInt_shrinks 2).bind fun _ => Shrinks.pure _

theorem readFieldBegin_shrinks : Shrinks binaryReadFieldBegin := by
  refine (readInt_shrinks 1).bind fun type => ?_
  split_ifs
  · exact Shrinks.pure _
  · exact (readInt_shrinks 2).bind fun _ => Shrinks.pure _

theorem nextField_shrinks : Shrinks binaryNextField := by
  refine readFieldBegin_shrinks.bind fun head => ?_
  dsimp only
  split_ifs
  · exact Shrinks.pure _
  · exact Shrinks.pure _

theorem readSize_shrinks : Shrinks readSize := by
  refine (readInt_shrinks 4).bind fun size => ?_
  split_ifs
  · exact Shrinks.fail _
  · exact Shrinks.pure _

theorem repeatRead_shrinks {r : Read Byte Unit} (hr : Shrinks r) (n : ℕ) :
    Shrinks (repeatRead r n) := by
  induction n with
  | zero => exact Shrinks.pure ()
  | succ n ih => exact hr.bind fun _ => ih

theorem skipIn_shrinks (depth : ℕ) (ftype : TType) : Shrinks (skipIn depth ftype) := by
  induction depth generalizing ftype with
  | zero => exact Shrinks.fail _
  | succ depth ih =>
    have hbytes : ∀ n, Shrinks (do let _ ← readBytes n) :=
      fun n => (readBytes_shrinks n).bind fun _ => Shrinks.pure ()
    cases ftype with
    | stop => exact Shrinks.fail _
    | void => exact Shrinks.fail _
    | bool => exact hbytes 1
    | byte => exact hbytes 1
    | double => exact hbytes 8
    | i16 => exact hbytes 2
    | i32 => exact hbytes 4
    | i64 => exact hbytes 8
    | string => exact readString_shrinks.bind fun _ => Shrinks.pure ()
    | struct => exact Shrinks.readItems nextField_shrinks (fun _ head => ih head.1) ()
    | map =>
      refine (readInt_shrinks 1).bind fun key => (readInt_shrinks 1).bind fun value =>
        readSize_shrinks.bind fun size => ?_
      exact repeatRead_shrinks ((ih _).bind fun _ => ih _) size
    | set => exact (readInt_shrinks 1).bind fun elem => readSize_shrinks.bind fun size =>
      repeatRead_shrinks (ih _) size
    | list => exact (readInt_shrinks 1).bind fun elem => readSize_shrinks.bind fun size =>
      repeatRead_shrinks (ih _) size

theorem reads_nextField {ftype : TType} (fid : I16) (h : ftype ≠ .stop) :
    Reads binaryNextField (binaryWriteFieldBegin ftype fid) (.ok (some (ftype, fid))) := by
  refine (reads_fieldBegin fid h).bind_nil ?_
  dsimp only
  rw [if_neg h]
  exact Reads.pure _

theorem writeFieldBegin_ne_nil (ftype : TType) (fid : I16) :
    binaryWriteFieldBegin ftype fid ≠ [] := by
  intro h
  have := congrArg List.length h
  rw [binaryWriteFieldBegin, List.length_append, length_toBytes, length_toBytes] at this
  cases this

/-- The exception's two fields. -/
theorem reads_exception {x : TApplicationException} (h : BinaryCarries x.message) :
    Reads binary.readException (binaryWriteException x) (.ok x) := by
  have hcode : x.type.code < 256 ^ 4 := by cases x.type <;> decide
  have hstop : Reads binaryNextField (toBytes 1 0) (.ok none) :=
    reads_fieldStop.bind_nil (Reads.pure _)
  have hturn : ∀ b ∈ [false, true], ∀ y : TApplicationException,
      Reads (exceptionField y (bif b then .i32 else .string, bif b then 2 else 1))
        (bif b then toBytes 4 x.type.code else binaryWriteString x.message)
        (.ok (bif b then { y with type := x.type } else { y with message := x.message })) := by
    rintro (_ | _) - y
    · exact (reads_string h).bind_nil (Reads.pure _)
    · refine (reads_int hcode).bind_nil ?_
      rw [TApplicationExceptionType.ofCode_code]
      exact Reads.pure _
  have htwo : Reads (readItems binaryNextField exceptionField .late ⟨.unknown, ""⟩) _ _ :=
    Reads.readItems (fun b : Bool => binaryWriteFieldBegin (bif b then .i32 else .string)
      (bif b then 2 else 1)) _ _
      (fun (y : TApplicationException) b => bif b then { y with type := x.type } else { y with
        message := x.message })
      [false, true]
      (fun b _ => reads_nextField _ (by cases b <;> decide)) hturn hstop
        (fun b _ => writeFieldBegin_ne_nil _ _)
      ⟨.unknown, ""⟩
  show Reads (readItems binaryNextField exceptionField .late ⟨.unknown, ""⟩)
      (binaryWriteException x) (.ok x)
  simpa [binaryWriteException] using htwo

/-- **The binary protocol keeps the laws.** -/
theorem binary_lawful : binary.Lawful where
  message _ mtype seqid h := reads_messageBegin mtype seqid h
  messageEnd := Reads.pure ()
  structBegin _ := Reads.pure ()
  structEnd := Reads.pure ()
  field _ _ fid h := reads_fieldBegin fid h
  fieldEnd := Reads.pure ()
  fieldStop := ⟨0, reads_fieldStop⟩
  i64 v := by
    refine (reads_bitVec v (by decide)).bind_nil ?_
    rw [BitVec.ofNat_toNat, BitVec.setWidth_eq]
    exact Reads.pure v
  string _ h := reads_string h
  exception _ h := reads_exception h
  message_takes := readMessageBegin_takes
  field_takes := readFieldBegin_takes
  structBegin_shrinks := Shrinks.pure ()
  fieldEnd_shrinks := Shrinks.pure ()
  i64_shrinks := (readInt_shrinks 8).bind fun _ => Shrinks.pure _
  string_shrinks := readString_shrinks
  skip_shrinks ftype := skipIn_shrinks 64 ftype

end NetworkDemo.Rpc
