import NetworkDemo.Foundations.Readers

/-!
# The protocol underneath

The generated code of the `TestProto` service reads and writes through a `TProtocol`, a
class of the library: messages, structs, fields and values each have an operation that
writes them and one that reads them.

## The model

`TProtocol β` has these operations as fields, over a stream of symbols `β` (bytes, with
`TBinaryProtocol`). What an operation writes is the list of symbols it puts into the
transport, and the `uint32_t` it returns is their number; an operation that reads is a
`Reader`, which counts likewise. Names that are read into a variable that nothing reads
are left out. A `std::string` is a `String` whose characters stand for the bytes; how long
a string may be is the protocol's affair (`carries`).

What the generated code relies on is `TProtocol.Lawful`: what was written is read back,
symbol for symbol, and reading a field's header takes something off the stream.
-/

namespace NetworkDemo.Rpc

open Foundations Foundations.Reader

/-- `int16_t`. -/
abbrev I16 := BitVec 16

/-- `int32_t`. -/
abbrev I32 := BitVec 32

/-- `int64_t`. -/
abbrev I64 := BitVec 64

/-- `TMessageType`. -/
inductive TMessageType where
  | call
  | reply
  | exception
  | oneway
  deriving DecidableEq

/-- `TType`. -/
inductive TType where
  | stop
  | void
  | bool
  | byte
  | double
  | i16
  | i32
  | i64
  | string
  | struct
  | map
  | set
  | list
  deriving DecidableEq

/-- `TApplicationExceptionType`, those that the code names. -/
inductive TApplicationExceptionType where
  | unknown
  | unknownMethod
  | badSequenceId
  | missingResult
  deriving DecidableEq

/-- `TApplicationException`. -/
structure TApplicationException where
  type : TApplicationExceptionType
  message : String
  deriving DecidableEq

/-- `TProtocolExceptionType`. -/
inductive TProtocolExceptionType where
  | unknown
  | invalidData
  | negativeSize
  | badVersion
  | depthLimit
  deriving DecidableEq

/-- What the generated code throws, or lets through. -/
inductive TException where
  | application (x : TApplicationException)
  | protocol (type : TProtocolExceptionType)
  /-- A `TTransportException`. -/
  | transport (what : String)
  /-- Not an exception: a loop of the model has run out of turns, which it never does
  (`readStruct_ends`). -/
  | late
  deriving DecidableEq

/-- A reader of the library, or made of its readers. -/
abbrev Read (β α : Type) := Reader β TException α

/-- `TProtocol`, with `TApplicationException::write` and `read`. -/
structure TProtocol (β : Type) where
  writeMessageBegin : String → TMessageType → I32 → List β
  writeMessageEnd : List β
  writeStructBegin : String → List β
  writeStructEnd : List β
  writeFieldBegin : String → TType → I16 → List β
  writeFieldEnd : List β
  writeFieldStop : List β
  writeI64 : I64 → List β
  writeString : String → List β
  writeException : TApplicationException → List β
  readMessageBegin : Read β (String × TMessageType × I32)
  readMessageEnd : Read β Unit
  readStructBegin : Read β Unit
  readStructEnd : Read β Unit
  readFieldBegin : Read β (TType × I16)
  readFieldEnd : Read β Unit
  readI64 : Read β I64
  readString : Read β String
  readException : Read β TApplicationException
  skip : TType → Read β Unit
  /-- The strings that can be sent. -/
  carries : String → Prop

namespace TProtocol

variable {β α : Type} (P : TProtocol β)

/-- The next field's type and id; none at a `T_STOP`. -/
def nextField : Read β (Option (TType × I16)) := do
  let (ftype, fid) ← P.readFieldBegin
  if ftype = .stop then return none else return some (ftype, fid)

/-- **What the generated code relies on.** -/
structure Lawful : Prop where
  message (name : String) (mtype : TMessageType) (seqid : I32) : P.carries name →
    Reads P.readMessageBegin (P.writeMessageBegin name mtype seqid) (.ok (name, mtype, seqid))
  messageEnd : Reads P.readMessageEnd P.writeMessageEnd (.ok ())
  structBegin (name : String) : Reads P.readStructBegin (P.writeStructBegin name) (.ok ())
  structEnd : Reads P.readStructEnd P.writeStructEnd (.ok ())
  field (name : String) (ftype : TType) (fid : I16) : ftype ≠ .stop →
    Reads P.readFieldBegin (P.writeFieldBegin name ftype fid) (.ok (ftype, fid))
  fieldEnd : Reads P.readFieldEnd P.writeFieldEnd (.ok ())
  fieldStop : ∃ fid, Reads P.readFieldBegin P.writeFieldStop (.ok (.stop, fid))
  i64 (v : I64) : Reads P.readI64 (P.writeI64 v) (.ok v)
  string (s : String) : P.carries s → Reads P.readString (P.writeString s) (.ok s)
  exception (x : TApplicationException) : P.carries x.message →
    Reads P.readException (P.writeException x) (.ok x)
  /-- A header is of one symbol at least. -/
  message_takes : Takes P.readMessageBegin fun _ => True
  field_takes : Takes P.readFieldBegin fun _ => True
  structBegin_shrinks : Shrinks P.readStructBegin
  fieldEnd_shrinks : Shrinks P.readFieldEnd
  i64_shrinks : Shrinks P.readI64
  string_shrinks : Shrinks P.readString
  skip_shrinks (ftype : TType) : Shrinks (P.skip ftype)

/-- Data of a type that a reader which does not know it skips. -/
def Skippable (ftype : TType) (bs : List β) : Prop := Reads (P.skip ftype) bs (.ok ())

variable {P}

theorem Lawful.nextField (h : P.Lawful) (name : String) {ftype : TType} (fid : I16)
    (hf : ftype ≠ .stop) :
    Reads P.nextField (P.writeFieldBegin name ftype fid) (.ok (some (ftype, fid))) := by
  refine (h.field name ftype fid hf).bind_nil ?_
  simp only [hf, if_false]
  exact Reads.pure _

theorem Lawful.nextField_stop (h : P.Lawful) : Reads P.nextField P.writeFieldStop (.ok none) := by
  obtain ⟨fid, hstop⟩ := h.fieldStop
  exact hstop.bind_nil (Reads.pure _)

theorem Lawful.nextField_takes (h : P.Lawful) : Takes P.nextField (·.isSome = true) := by
  refine h.field_takes.bind fun head => ?_
  dsimp only
  split_ifs
  · exact Shrinks.pure _
  · exact Shrinks.pure _

/-- What is read, and takes something, is something. -/
theorem ne_nil_of_reads {r : Read β α} {bs : List β} {a : α} (hr : Reads r bs (.ok a))
    (ht : Takes r fun _ => True) : bs ≠ [] := by
  rintro rfl
  exact Nat.lt_irrefl _ (ht _ _ _ _ (hr []) trivial)

theorem Lawful.writeMessageBegin_ne_nil (h : P.Lawful) {name : String} (mtype : TMessageType)
    (seqid : I32) (hn : P.carries name) : P.writeMessageBegin name mtype seqid ≠ [] :=
  ne_nil_of_reads (h.message name mtype seqid hn) h.message_takes

theorem Lawful.writeFieldBegin_ne_nil (h : P.Lawful) (name : String) {ftype : TType} (fid : I16)
    (hf : ftype ≠ .stop) :
    P.writeFieldBegin name ftype fid ≠ [] :=
  ne_nil_of_reads (h.field name ftype fid hf) h.field_takes

end TProtocol

/-! ### Structs -/

section Structs

variable {β ρ κ : Type} (P : TProtocol β)

/-- The rest of a turn, when a field's header has been read: its `switch (fid)` is `field`. -/
def readField (field : ρ → TType → I16 → Read β ρ) (r : ρ) (head : TType × I16) : Read β ρ := do
  let r ← field r head.1 head.2
  P.readFieldEnd
  return r

/-- The loop of a generated `read`. -/
def readFields (field : ρ → TType → I16 → Read β ρ) (r : ρ) : Read β ρ :=
  readItems P.nextField (readField P field) .late r

/-- A generated `read`. -/
def readStruct (field : ρ → TType → I16 → Read β ρ) (r : ρ) : Read β ρ := do
  P.readStructBegin
  let r ← readFields P field r
  P.readStructEnd
  return r

/-- A generated `read` whose loop is given fewer than `fuel` turns, and throws `e` for want of
more. -/
def readStructIn (e : TException) (fuel : ℕ) (field : ρ → TType → I16 → Read β ρ) (r : ρ) :
    Read β ρ := do
  P.readStructBegin
  let r ← readItemsIn P.nextField (readField P field) e fuel r
  P.readStructEnd
  return r

/-- A field on the wire. -/
structure Field (β : Type) where
  name : String
  ftype : TType
  fid : I16
  data : List β
  deriving DecidableEq

/-- A field, written. -/
def Field.write (f : Field β) : List β :=
  P.writeFieldBegin f.name f.ftype f.fid ++ (f.data ++ P.writeFieldEnd)

/-- A struct with some fields, written. -/
def writeStruct (name : String) (fields : List (Field β)) : List β :=
  P.writeStructBegin name ++ ((fields.flatMap fun f => f.write P) ++ P.writeFieldStop) ++
    P.writeStructEnd

variable {P} {field : ρ → TType → I16 → Read β ρ}

/-- **What a generated `read` reads**: a struct of fields, each told by what the `switch` does with
it. -/
theorem reads_struct (h : P.Lawful) (name : String) (toField : κ → Field β) (take : ρ → κ → ρ)
    (ks : List κ) (hf : ∀ k ∈ ks, (toField k).ftype ≠ .stop)
    (hread : ∀ k ∈ ks, ∀ r, Reads (field r (toField k).ftype (toField k).fid) (toField k).data
      (.ok (take r k))) (r : ρ) :
    Reads (readStruct P field r) (writeStruct P name (ks.map toField)) (.ok (ks.foldl take r)) := by
  have hfields : Reads (readFields P field r) (((ks.map toField).flatMap fun f => f.write P) ++
      P.writeFieldStop)
      (.ok (ks.foldl take r)) := by
    rw [List.flatMap_map]
    refine Reads.readItems _ _ (fun k => ((toField k).ftype, (toField k).fid)) take ks
      (fun k hm => h.nextField (toField k).name (toField k).fid (hf k hm))
        (fun k hm s => ?_) h.nextField_stop
      (fun k hm => h.writeFieldBegin_ne_nil (toField k).name (toField k).fid (hf k hm)) r
    exact (hread k hm s).bind (h.fieldEnd.bind_nil (Reads.pure _))
  rw [writeStruct, List.append_assoc]
  exact (h.structBegin name).bind (hfields.bind (h.structEnd.bind_nil (Reads.pure _)))

/-- **The loop ends**, whatever is on the wire: no turn is refused for want of fuel, since what
would be thrown then is never thrown. -/
theorem readStruct_ends (h : P.Lawful) (hfield : ∀ r ftype fid, Shrinks (field r ftype fid))
    (e : TException) {fuel : ℕ} {bs : List β} (hfuel : bs.length < fuel) (r : ρ) :
    readStructIn P e fuel field r bs = readStruct P field r bs := by
  have hle := h.structBegin_shrinks bs
  unfold readStructIn readStruct
  rcases hbegin : P.readStructBegin bs with ⟨x | u, n, rest⟩
  · rw [bind_error hbegin, bind_error hbegin]
  · rw [hbegin] at hle
    have hturn : ∀ r i, Shrinks (readField P field r i) := fun r i =>
      (hfield r i.1 i.2).bind fun r => h.fieldEnd_shrinks.bind fun _ => Shrinks.pure r
    have hloop : readItemsIn P.nextField (readField P field) e fuel r rest =
        readFields P field r rest :=
      readItems_ends h.nextField_takes hturn e (Nat.lt_of_le_of_lt hle hfuel) r
    rw [bind_ok hbegin, bind_ok hbegin, bind_congr_apply hloop]

end Structs

end NetworkDemo.Rpc
