import NetworkDemo.Rpc.Binary
import Mathlib.Data.List.Induction

/-!
# The generated records

A method's arguments and its result are structs with a generated `read` and `write`. The
methods of `TestProto` have no arguments, so `args::read` skips every field there is. A
result has one field, `success`, with id 0: `result::write` writes it if it is set, and
`read` takes a field with id 0 of the right type, skips any other, and goes on to the
end of the struct. Server and client have a class each for the same struct (`result` and
`presult`, `args` and `pargs`); a `presult` writes through a pointer.

The two methods differ in the type of `success`, the value's `Codec`. The recursion
trackers, whose limit one level of structs does not come near, are left out, and so are
the copy constructors and the comparisons that are declared only.

* `records_read_back` — what one side writes the other reads, also where fields the reader
  does not know stand around it; the two count the same bytes. Where the field is there
  more than once, the last one counts. Reading ends, whatever is on the wire.
-/

namespace NetworkDemo.Rpc

open Foundations Foundations.Reader

variable {β α : Type} (P : TProtocol β)

/-- How values of a type are told on the wire. -/
structure Codec (β α : Type) where
  ftype : TType
  write : α → List β
  read : Read β α

/-- `T_I64`. -/
def i64Codec : Codec β I64 := ⟨.i64, P.writeI64, P.readI64⟩

/-- `T_STRING`. -/
def stringCodec : Codec β String := ⟨.string, P.writeString, P.readString⟩

/-- A method's result: its field, and whether it is set. -/
structure Result (α : Type) where
  success : α
  isset : Bool
  deriving DecidableEq

/-! ### Arguments -/

/-- `args::read`. -/
def readArgs : Read β Unit := readStruct P (fun _ ftype _ => P.skip ftype) ()

/-- `args::write` and `pargs::write`. -/
def writeArgs (name : String) : List β := writeStruct P name []

/-- `TestProto_remoteTime_args::read`. -/
def remoteTimeArgsRead : Read β Unit := readArgs P

/-- `TestProto_remoteTime_args::write`. -/
def remoteTimeArgsWrite : List β := writeArgs P "TestProto_remoteTime_args"

/-- `TestProto_remoteTime_pargs::write`. -/
def remoteTimePargsWrite : List β := writeArgs P "TestProto_remoteTime_pargs"

/-- `TestProto_send_args::read`. -/
def sendArgsRead : Read β Unit := readArgs P

/-- `TestProto_send_args::write`. -/
def sendArgsWrite : List β := writeArgs P "TestProto_send_args"

/-- `TestProto_send_pargs::write`. -/
def sendPargsWrite : List β := writeArgs P "TestProto_send_pargs"

/-! ### Results -/

/-- The `switch (fid)` of a result's `read`. -/
def resultField (c : Codec β α) (r : Result α) (ftype : TType) (fid : I16) : Read β (Result α) := do
  if fid = 0 then
    if ftype = c.ftype then
      let v ← c.read
      return ⟨v, true⟩
    else
      P.skip ftype
      return r
  else
    P.skip ftype
    return r

/-- `result::read` and `presult::read`, into `r`. -/
def readResult (c : Codec β α) (r : Result α) : Read β (Result α) :=
  readStruct P (resultField P c) r

/-- `result::write`. -/
def writeResult (c : Codec β α) (name : String) (r : Result α) : List β :=
  writeStruct P name (if r.isset = true then [⟨"success", c.ftype, 0, c.write r.success⟩] else [])

/-- `TestProto_remoteTime_result::read`. -/
def remoteTimeResultRead (r : Result I64) : Read β (Result I64) := readResult P (i64Codec P) r

/-- `TestProto_remoteTime_result::write`. -/
def remoteTimeResultWrite (r : Result I64) : List β :=
  writeResult P (i64Codec P) "TestProto_remoteTime_result" r

/-- `TestProto_remoteTime_presult::read`. -/
def remoteTimePresultRead (r : Result I64) : Read β (Result I64) := readResult P (i64Codec P) r

/-- `TestProto_send_result::read`. -/
def sendResultRead (r : Result String) : Read β (Result String) := readResult P (stringCodec P) r

/-- `TestProto_send_result::write`. -/
def sendResultWrite (r : Result String) : List β :=
  writeResult P (stringCodec P) "TestProto_send_result" r

/-- `TestProto_send_presult::read`. -/
def sendPresultRead (r : Result String) : Read β (Result String) := readResult P (stringCodec P) r

/-! ### Reading back -/

variable {P} {c : Codec β α} {ok : α → Prop}

/-- The values that are `ok` are read back. -/
structure Codec.Lawful (c : Codec β α) (ok : α → Prop) : Prop where
  ftype_ne : c.ftype ≠ .stop
  reads : ∀ v, ok v → Reads c.read (c.write v) (.ok v)
  shrinks : Shrinks c.read

theorem i64Codec_lawful (h : P.Lawful) : (i64Codec P).Lawful fun _ => True where
  ftype_ne := by simp [i64Codec]
  reads v _ := h.i64 v
  shrinks := h.i64_shrinks

theorem stringCodec_lawful (h : P.Lawful) : (stringCodec P).Lawful P.carries where
  ftype_ne := by simp [stringCodec]
  reads := h.string
  shrinks := h.string_shrinks

/-- A field that a reader of results may meet: a value, or something that it does not know. -/
inductive ResultField (β α : Type) where
  | success (name : String) (v : α)
  | foreign (f : Field β)

/-- The field on the wire. -/
def ResultField.toField (c : Codec β α) : ResultField β α → Field β
  | .success name v => ⟨name, c.ftype, 0, c.write v⟩
  | .foreign f => f

/-- The value can be sent; what is not known can be skipped. -/
def ResultField.Ok (P : TProtocol β) (c : Codec β α) (ok : α → Prop) : ResultField β α → Prop
  | .success _ v => ok v
  | .foreign f => f.ftype ≠ .stop ∧ ¬ (f.fid = 0 ∧ f.ftype = c.ftype) ∧ P.Skippable f.ftype f.data

/-- What the reader makes of it. -/
def ResultField.take (r : Result α) : ResultField β α → Result α
  | .success _ v => ⟨v, true⟩
  | .foreign _ => r

theorem reads_resultField (hc : c.Lawful ok) {w : ResultField β α} (hw : w.Ok P c ok)
    (r : Result α) :
    Reads (resultField P c r (w.toField c).ftype (w.toField c).fid) (w.toField c).data
      (.ok (w.take r)) := by
  cases w with
  | success name v =>
    simp only [resultField, ResultField.toField, if_true]
    exact (hc.reads v hw).bind_nil (Reads.pure _)
  | foreign f =>
    obtain ⟨-, hno, hskip⟩ := hw
    have hrest : Reads (do P.skip f.ftype; return r) f.data (.ok r) := hskip.bind_nil (Reads.pure _)
    by_cases h0 : f.fid = 0
    · have ht : f.ftype ≠ c.ftype := fun ht => hno ⟨h0, ht⟩
      simp only [resultField, ResultField.toField, h0, ht, if_true, if_false]
      exact hrest
    · simp only [resultField, ResultField.toField, h0, if_false]
      exact hrest

theorem ResultField.ftype_ne (hc : c.Lawful ok) {w : ResultField β α} (hw : w.Ok P c ok) :
    (w.toField c).ftype ≠ .stop := by
  cases w with
  | success => exact hc.ftype_ne
  | foreign f => exact hw.1

/-- **What a result's reader makes of a struct**: the last value of the fields that it knows. -/
theorem reads_result (h : P.Lawful) (hc : c.Lawful ok) (name : String) (ws : List (ResultField β α))
    (hw : ∀ w ∈ ws, w.Ok P c ok) (r : Result α) :
    Reads (readResult P c r) (writeStruct P name (ws.map (·.toField c)))
      (.ok (ws.foldl ResultField.take r)) :=
  reads_struct h name _ _ ws (fun w hm => ResultField.ftype_ne hc (hw w hm))
    (fun w hm r => reads_resultField hc (hw w hm) r) r

/-- The value in the field, if it is one. -/
def ResultField.value? : ResultField β α → Option α
  | .success _ v => some v
  | .foreign _ => none

/-- What is read into `r` from some fields. -/
def received (ws : List (ResultField β α)) (r : Result α) : Result α :=
  ((ws.filterMap ResultField.value?).getLast?).elim r fun v => ⟨v, true⟩

theorem foldl_take (ws : List (ResultField β α)) (r : Result α) :
    ws.foldl ResultField.take r = received ws r := by
  induction ws using List.reverseRecOn with
  | nil => rfl
  | append_singleton ws w ih =>
    rw [List.foldl_append, ih]
    cases w with
    | success name v => simp [received, ResultField.take, ResultField.value?]
    | foreign f => simp [received, ResultField.take, ResultField.value?]

/-- A reader of results and a writer of them agree. -/
structure ReadsBack (P : TProtocol β) (c : Codec β α) (ok : α → Prop) (name : String)
    (read : Result α → Read β (Result α)) (write : Result α → List β) : Prop where
  /-- The last value among the fields is what is read. -/
  among (ws : List (ResultField β α)) (r : Result α) : (∀ w ∈ ws, w.Ok P c ok) →
    Reads (read r) (writeStruct P name (ws.map (·.toField c))) (.ok (received ws r))
  /-- What is written is read. -/
  written (r r' : Result α) : (r.isset = true → ok r.success) →
    Reads (read r') (write r) (.ok (if r.isset = true then r else r'))
  /-- The loop ends, whatever is there to be read: nothing is thrown for want of turns. -/
  ends (e : TException) (fuel : ℕ) (bs : List β) (r : Result α) : bs.length < fuel →
    readStructIn P e fuel (resultField P c) r bs = read r bs

theorem resultField_shrinks (h : P.Lawful) (hc : c.Lawful ok) (r : Result α) (ftype : TType)
    (fid : I16) :
    Shrinks (resultField P c r ftype fid) := by
  have hskip : Shrinks (do P.skip ftype; return r) :=
    (h.skip_shrinks ftype).bind fun _ => Shrinks.pure r
  by_cases h0 : fid = 0
  · by_cases ht : ftype = c.ftype
    · simp only [resultField, h0, ht, if_true]
      exact hc.shrinks.bind fun v => Shrinks.pure _
    · simp only [resultField, h0, ht, if_true, if_false]
      exact hskip
  · simp only [resultField, h0, if_false]
    exact hskip

theorem readResult_back (h : P.Lawful) (hc : c.Lawful ok) (name : String) :
    ReadsBack P c ok name (readResult P c) (writeResult P c name) where
  among ws r hw := by
    rw [← foldl_take]
    exact reads_result h hc name ws hw r
  written r r' hr := by
    obtain ⟨v, _ | _⟩ := r
    · exact reads_result h hc name [] (by simp) r'
    · refine reads_result h hc name [.success "success" v] (fun w hw => ?_) r'
      rw [List.mem_singleton.mp hw]
      exact hr rfl
  ends e _ _ r hf := readStruct_ends h (resultField_shrinks h hc) e hf r

/-! ### Arguments are skipped -/

/-- Fields that can be skipped. -/
def AllSkippable (P : TProtocol β) (fs : List (Field β)) : Prop :=
  ∀ f ∈ fs, f.ftype ≠ .stop ∧ P.Skippable f.ftype f.data

theorem reads_args (h : P.Lawful) (name : String) {fs : List (Field β)} (hf : AllSkippable P fs) :
    Reads (readArgs P) (writeStruct P name fs) (.ok ()) := by
  have hread : Reads (readStruct P (fun _ ftype _ => P.skip ftype) ())
      (writeStruct P name (fs.map id)) (.ok ()) := by
    refine reads_struct h name id (fun _ _ => ()) fs (fun f hm => (hf f hm).1) (fun f hm _ => ?_) ()
    exact (hf f hm).2
  rwa [List.map_id] at hread

theorem reads_writeArgs (h : P.Lawful) (name : String) :
    Reads (readArgs P) (writeArgs P name) (.ok ()) :=
  reads_args h name (by simp [AllSkippable])

/-- A reader of arguments and the two writers of them agree. -/
structure ArgsReadBack (P : TProtocol β) (read : Read β Unit) (args pargs : List β) : Prop where
  /-- Whatever fields there are, they are skipped. -/
  among (name : String) (fs : List (Field β)) : AllSkippable P fs →
    Reads read (writeStruct P name fs) (.ok ())
  /-- What is written is read. -/
  written : Reads read args (.ok ())
  /-- The client's class writes for the same reader. -/
  pwritten : Reads read pargs (.ok ())
  /-- The loop ends. -/
  ends (e : TException) (fuel : ℕ) (bs : List β) : bs.length < fuel →
    readStructIn P e fuel (fun _ ftype _ => P.skip ftype) () bs = read bs

theorem readArgs_back (h : P.Lawful) (name pname : String) :
    ArgsReadBack P (readArgs P) (writeArgs P name) (writeArgs P pname) where
  among name _ hf := reads_args h name hf
  written := reads_writeArgs h name
  pwritten := reads_writeArgs h pname
  ends e _ _ hf := readStruct_ends h (fun _ ftype _ => h.skip_shrinks ftype) e hf ()

/-! ### The records of the service -/

/-- What the classes for a method agree on: arguments and results, the server's and the client's. -/
structure RecordsReadBack (P : TProtocol β) (c : Codec β α) (ok : α → Prop) (resultName : String)
    (argsRead : Read β Unit) (argsWrite pargsWrite : List β)
    (resultRead presultRead : Result α → Read β (Result α)) (resultWrite : Result α → List β) :
    Prop where
  args : ArgsReadBack P argsRead argsWrite pargsWrite
  result : ReadsBack P c ok resultName resultRead resultWrite
  presult : ReadsBack P c ok resultName presultRead resultWrite

/-- **The records are read back**, by the server's classes for them and by the client's. -/
theorem records_read_back (h : P.Lawful) :
    RecordsReadBack P (i64Codec P) (fun _ => True) "TestProto_remoteTime_result"
      (remoteTimeArgsRead P) (remoteTimeArgsWrite P) (remoteTimePargsWrite P)
      (remoteTimeResultRead P) (remoteTimePresultRead P) (remoteTimeResultWrite P) ∧
    RecordsReadBack P (stringCodec P) P.carries "TestProto_send_result"
      (sendArgsRead P) (sendArgsWrite P) (sendPargsWrite P)
      (sendResultRead P) (sendPresultRead P) (sendResultWrite P) := by
  have hi := readResult_back h (i64Codec_lawful h) "TestProto_remoteTime_result"
  have hs := readResult_back h (stringCodec_lawful h) "TestProto_send_result"
  exact ⟨⟨readArgs_back h _ _, hi, hi⟩, ⟨readArgs_back h _ _, hs, hs⟩⟩

/-- With the binary protocol. -/
theorem records_read_back_binary :
    RecordsReadBack binary (i64Codec binary) (fun _ => True) "TestProto_remoteTime_result"
      (remoteTimeArgsRead binary) (remoteTimeArgsWrite binary) (remoteTimePargsWrite binary)
      (remoteTimeResultRead binary) (remoteTimePresultRead binary)
      (remoteTimeResultWrite binary) ∧
    RecordsReadBack binary (stringCodec binary) BinaryCarries "TestProto_send_result"
      (sendArgsRead binary) (sendArgsWrite binary) (sendPargsWrite binary)
      (sendResultRead binary) (sendPresultRead binary) (sendResultWrite binary) :=
  records_read_back binary_lawful

/-- A reply as an older server might send it, an unknown field before the time. -/
example : (remoteTimePresultRead binary ⟨7, false⟩
    (writeStruct binary "" [⟨"", .i32, 4, toBytes 4 9⟩, ⟨"", .i64, 0, toBytes 8 300⟩] ++
      [1, 2])).1 = .ok ⟨300, true⟩ := by
  decide

end NetworkDemo.Rpc
