import NetworkDemo.Rpc.Records
import NetworkDemo.Foundations.Runs

/-!
# The processor

`TestProtoProcessor::dispatchCall` is called when a message's header has been read. It
looks the method up; its function reads the arguments, calls the handler, and writes a
reply, or an exception if the handler throws a `std::exception`. A method that is not
there is answered by an exception too. Anything else a handler throws leaves the
processor, and nothing is written.

The header is read by the library, in `TDispatchProcessor::process`. That is a parameter
here, a `Dispatcher`; what the code relies on is `Dispatcher.Lawful`. When a request has been
read there is `Work` left: to call the handler, and to write what comes of it.

The event handler is null in this repository and left out.

* `dispatchCall_reads` — a request is read to its last byte and answered by one message with
  its name and its sequence id.
* `server_answers` — so in every run of a server on a connection, whatever well-formed
  requests arrive and whenever: what it has written is one answer for each request that it
  has taken, in their order, and the next one waits at the front of the stream.
-/

namespace NetworkDemo.Rpc

open Foundations Foundations.Reader

variable {β α σ : Type} (P : TProtocol β)

/-! ### Handlers -/

/-- What a handler throws: a `std::exception` with its `what()`, or something else. -/
inductive Thrown where
  | std (what : String)
  | other
  deriving DecidableEq

/-- `TestProtoIf`, the handler's state being passed along. `send` fills in the string that it is
given. -/
structure TestProtoIf (σ : Type) where
  remoteTime : σ → Except Thrown I64 × σ
  send : String → σ → Except Thrown String × σ

/-! ### The functions of the processor -/

/-- A reply. -/
def writeReply (resultWrite : Result α → List β) (name : String) (seqid : I32) (v : α) : List β :=
  P.writeMessageBegin name .reply seqid ++ (resultWrite ⟨v, true⟩ ++ P.writeMessageEnd)

/-- An exception in a reply's place. -/
def writeThrown (name : String) (seqid : I32) (x : TApplicationException) : List β :=
  P.writeMessageBegin name .exception seqid ++ (P.writeException x ++ P.writeMessageEnd)

/-- What is left to do when a request has been read: the handler is called, and there is something
to write, unless an exception leaves the processor. -/
abbrev Work (β σ : Type) : Type := σ → Option (List β) × σ

/-- A `process_*`. -/
def process (argsRead : Read β Unit) (resultWrite : Result α → List β) (name : String)
    (run : σ → Except Thrown α × σ) (seqid : I32) : Read β (Work β σ) := do
  argsRead
  P.readMessageEnd
  return fun s =>
    match run s with
    | (.ok v, s) => (some (writeReply P resultWrite name seqid v), s)
    | (.error (.std what), s) => (some (writeThrown P name seqid ⟨.unknown, what⟩), s)
    | (.error .other, s) => (none, s)

/-- `process_remoteTime`. -/
def processRemoteTime (h : TestProtoIf σ) : I32 → Read β (Work β σ) :=
  process P (remoteTimeArgsRead P) (remoteTimeResultWrite P) "remoteTime" h.remoteTime

/-- `process_send`. The result's string is empty when the handler gets it. -/
def processSend (h : TestProtoIf σ) : I32 → Read β (Work β σ) :=
  process P (sendArgsRead P) (sendResultWrite P) "send" (h.send "")

/-- What is said of a method that there is not. -/
def invalidMethod (fname : String) : TApplicationException :=
  ⟨.unknownMethod, "Invalid method name: '" ++ fname ++ "'"⟩

/-- `dispatchCall`. -/
def dispatchCall (h : TestProtoIf σ) (fname : String) (seqid : I32) : Read β (Work β σ) := do
  if fname = "remoteTime" then processRemoteTime P h seqid
  else if fname = "send" then processSend P h seqid
  else
    P.skip .struct
    P.readMessageEnd
    return fun s => (some (writeThrown P fname seqid (invalidMethod fname)), s)

/-! ### The library's part -/

/-- `TDispatchProcessor::process`, made of a `dispatchCall`; it gives none where it returns false,
and then the connection is closed. -/
abbrev Dispatcher (β σ : Type) : Type :=
  (String → I32 → Read β (Work β σ)) → Read β (Option (Work β σ))

/-- **What the code relies on**: a message of a client is dispatched, by its name and with its
sequence id. -/
def Dispatcher.Lawful (P : TProtocol β) (D : Dispatcher β σ) : Prop :=
  ∀ (dispatchCall : String → I32 → Read β (Work β σ)) (name : String) (mtype : TMessageType)
    (seqid : I32) (body : List β) (w : Work β σ), P.carries name →
    mtype = .call ∨ mtype = .oneway → Reads (dispatchCall name seqid) body (.ok w) →
    Reads (D dispatchCall) (P.writeMessageBegin name mtype seqid ++ body) (.ok (some w))

/-- A server's thread takes a message: what it writes, unless the connection is closed, and the
handler's state. -/
def serve (D : Dispatcher β σ) (h : TestProtoIf σ) (s : σ) : Read β (Option (List β) × σ) := do
  match ← D (dispatchCall P h) with
  | some w => return w s
  | none => return (none, s)

/-! ### What the service answers -/

/-- An answer. -/
inductive Answer where
  | time (v : I64)
  | data (s : String)
  | thrown (x : TApplicationException)
  deriving DecidableEq

/-- What becomes of what the handler does. -/
def answerOf (ret : α → Answer) : Except Thrown α → Option Answer
  | .ok v => some (ret v)
  | .error (.std what) => some (.thrown ⟨.unknown, what⟩)
  | .error .other => none

/-- The answer to a call of `fname`, if there is one, and the state after it. -/
def answer (h : TestProtoIf σ) (fname : String) (s : σ) : Option Answer × σ :=
  if fname = "remoteTime" then ((h.remoteTime s).map (answerOf .time) id)
  else if fname = "send" then ((h.send "" s).map (answerOf .data) id)
  else (some (.thrown (invalidMethod fname)), s)

/-- An answer, written. -/
def Answer.write (name : String) (seqid : I32) : Answer → List β
  | .time v => writeReply P (remoteTimeResultWrite P) name seqid v
  | .data s => writeReply P (sendResultWrite P) name seqid s
  | .thrown x => writeThrown P name seqid x

/-- What is left to do of a request, by what the service answers. -/
def work (h : TestProtoIf σ) (fname : String) (seqid : I32) : Work β σ := fun s =>
  ((answer h fname s).1.map (·.write P fname seqid), (answer h fname s).2)

/-- A request on the wire. -/
structure Request (β : Type) where
  name : String
  mtype : TMessageType
  seqid : I32
  argsName : String
  fields : List (Field β)
  deriving DecidableEq

namespace Request

variable (r : Request β)

/-- The arguments, and the end of the message. -/
def body : List β := writeStruct P r.argsName r.fields ++ P.writeMessageEnd

/-- The message. -/
def write : List β := P.writeMessageBegin r.name r.mtype r.seqid ++ r.body P

/-- It is a call, its name can be sent, and what is in the arguments can be skipped. -/
structure Ok : Prop where
  calls : r.mtype = .call ∨ r.mtype = .oneway
  name_carried : P.carries r.name
  fields_skippable : AllSkippable P r.fields
  args_skippable : r.name ≠ "remoteTime" → r.name ≠ "send" →
    P.Skippable .struct (writeStruct P r.argsName r.fields)

end Request

/-- The handler throws nothing but `std::exception`s. -/
def TestProtoIf.StdOnly (h : TestProtoIf σ) : Prop :=
  (∀ s, (h.remoteTime s).1 ≠ .error .other) ∧ ∀ s, (h.send "" s).1 ≠ .error .other

/-! ### A request is answered -/

variable {P} {h : TestProtoIf σ} {D : Dispatcher β σ}

theorem process_reads (hP : P.Lawful) {resultWrite : Result α → List β} {name : String}
    {run : σ → Except Thrown α × σ} {ret : α → Answer} {seqid : I32}
    (hret : ∀ v, (ret v).write P name seqid = writeReply P resultWrite name seqid v)
    {r : Request β} (hr : r.Ok P) :
    Reads (process P (readArgs P) resultWrite name run seqid) (r.body P)
      (.ok fun s => ((answerOf ret (run s).1).map (·.write P name seqid), (run s).2)) := by
  have hwork : (fun s => match run s with
      | (.ok v, s) => (some (writeReply P resultWrite name seqid v), s)
      | (.error (.std what), s) => (some (writeThrown P name seqid ⟨.unknown, what⟩), s)
      | (.error .other, s) => (none, s)) =
      fun s => ((answerOf ret (run s).1).map (·.write P name seqid), (run s).2) := by
    funext s
    rcases run s with ⟨(what | _) | v, s'⟩
    · rfl
    · rfl
    · simp only [answerOf, Option.map_some, hret]
  rw [← hwork]
  exact (reads_args hP r.argsName hr.fields_skippable).bind
    (hP.messageEnd.bind_nil (Reads.pure _))

/-- **A request is read** to its last byte, and what is left to do is to answer it by one message
with its name and its sequence id. -/
theorem dispatchCall_reads (hP : P.Lawful) {r : Request β} (hr : r.Ok P) :
    Reads (dispatchCall P h r.name r.seqid) (r.body P) (.ok (work P h r.name r.seqid)) := by
  unfold dispatchCall work answer
  split_ifs with h1 h2
  · rw [h1]
    exact process_reads hP (fun _ => rfl) hr
  · rw [h2]
    exact process_reads hP (fun _ => rfl) hr
  · exact (hr.args_skippable h1 h2).bind (hP.messageEnd.bind_nil (Reads.pure _))

/-- The library hands it over. -/
theorem process_dispatches (hP : P.Lawful) (hD : D.Lawful P) {r : Request β} (hr : r.Ok P) :
    Reads (D (dispatchCall P h)) (r.write P) (.ok (some (work P h r.name r.seqid))) :=
  hD _ r.name r.mtype r.seqid (r.body P) _ hr.name_carried hr.calls (dispatchCall_reads hP hr)

theorem serve_reads (hP : P.Lawful) (hD : D.Lawful P) {r : Request β} (hr : r.Ok P) (s : σ) :
    Reads (serve P D h s) (r.write P) (.ok (work P h r.name r.seqid s)) :=
  (process_dispatches hP hD hr).bind_nil (Reads.pure _)

theorem answer_isSome (hh : h.StdOnly) (fname : String) (s : σ) :
    ∃ a, (answer h fname s).1 = some a := by
  have hof : ∀ {α : Type} (ret : α → Answer) (x : Except Thrown α), x ≠ .error .other →
      ∃ a, answerOf ret x = some a := by
    rintro α ret ((what | _) | v) hx
    · exact ⟨_, rfl⟩
    · exact absurd rfl hx
    · exact ⟨_, rfl⟩
  unfold answer
  split_ifs
  · exact hof _ _ (hh.1 s)
  · exact hof _ _ (hh.2 s)
  · exact ⟨_, rfl⟩

/-! ### A server's runs -/

/-- One answer for each request, and the state after them. -/
def answers (P : TProtocol β) (h : TestProtoIf σ) (s : σ) : List (Request β) → List β × σ
  | [] => ([], s)
  | r :: rs =>
    let (a, s) := answer h r.name s
    let (out, s) := answers P h s rs
    (a.elim [] (·.write P r.name r.seqid) ++ out, s)

theorem answers_append (s : σ) (rs rs' : List (Request β)) :
    answers P h s (rs ++ rs') =
      ((answers P h s rs).1 ++ (answers P h (answers P h s rs).2 rs').1,
        (answers P h (answers P h s rs).2 rs').2) := by
  induction rs generalizing s with
  | nil => rfl
  | cons r rs ih => simp only [List.cons_append, answers, ih, List.append_assoc]

/-- A connection, as the server sees it. -/
structure Server (β σ : Type) where
  /-- What has come in and not been read. -/
  requests : List β
  /-- All that has been written. -/
  written : List β
  handler : σ
  /-- The requests that have come in, and how many have been taken. -/
  arrived : List (Request β)
  taken : ℕ
  deriving DecidableEq

/-- What happens on a connection. -/
inductive ServerAct (β : Type) where
  | arrive (r : Request β)
  | serve

/-- A request comes in, or the server takes what there is. -/
def Server.step (P : TProtocol β) (D : Dispatcher β σ) (h : TestProtoIf σ) (st : Server β σ) :
    ServerAct β → Option (Server β σ)
  | .arrive r => some { st with requests := st.requests ++ r.write P, arrived := st.arrived ++ [r] }
  | .serve =>
    if st.requests = [] then none
    else match Rpc.serve P D h st.handler st.requests with
    | (.ok (some out, s), _, rest) =>
      some { st with
        requests := rest, written := st.written ++ out, handler := s, taken := st.taken + 1 }
    | _ => none

/-- A server on a new connection. -/
def server (P : TProtocol β) (D : Dispatcher β σ) (h : TestProtoIf σ) (s₀ : σ) :
    Lts (Server β σ) (ServerAct β) where
  init st := st = ⟨[], [], s₀, [], 0⟩
  step st a st' := st.step P D h a = some st'

/-- What arrives is well-formed. -/
def ServerAct.Ok (P : TProtocol β) : ServerAct β → Prop
  | .arrive r => r.Ok P
  | .serve => True

/-- The requests that have been taken are answered, the others wait. -/
structure Server.Answers (P : TProtocol β) (h : TestProtoIf σ) (s₀ : σ) (st : Server β σ) :
    Prop where
  arrived_ok : ∀ r ∈ st.arrived, r.Ok P
  taken_le : st.taken ≤ st.arrived.length
  requests : st.requests = (st.arrived.drop st.taken).flatMap (·.write P)
  written : st.written = (answers P h s₀ (st.arrived.take st.taken)).1
  handler : st.handler = (answers P h s₀ (st.arrived.take st.taken)).2

theorem Request.write_ne_nil (hP : P.Lawful) {r : Request β} (hr : r.Ok P) :
    r.write P ≠ [] := fun h =>
  hP.writeMessageBegin_ne_nil r.mtype r.seqid hr.name_carried (List.append_eq_nil_iff.mp h).1

/-- The server takes the first request that waits. -/
theorem Server.Answers.serve (hP : P.Lawful) (hD : D.Lawful P) (hh : h.StdOnly) {s₀ : σ}
    {st : Server β σ} (hst : st.Answers P h s₀) (hlt : st.taken < st.arrived.length) :
    ∃ st', st.step P D h .serve = some st' ∧ st'.arrived = st.arrived ∧ st'.taken = st.taken + 1 ∧
    st'.Answers P h s₀ := by
  set r := st.arrived[st.taken] with hr
  have hok : r.Ok P := hst.arrived_ok r (List.getElem_mem hlt)
  have hwait : st.requests = r.write P ++ (st.arrived.drop (st.taken + 1)).flatMap (·.write P) := by
    rw [hst.requests, List.drop_eq_getElem_cons hlt, List.flatMap_cons]
  obtain ⟨a, ha⟩ := answer_isSome hh r.name st.handler
  have hread := serve_reads (h := h) hP hD hok st.handler
    ((st.arrived.drop (st.taken + 1)).flatMap (·.write P))
  rw [← hwait, work, ha, Option.map_some] at hread
  have hne : st.requests ≠ [] := by
    rw [hwait]
    exact fun h => Request.write_ne_nil hP hok (List.append_eq_nil_iff.mp h).1
  have htake : st.arrived.take (st.taken + 1) = st.arrived.take st.taken ++ [r] :=
    List.take_succ_eq_append_getElem hlt
  have hone : answers P h (answers P h s₀ (st.arrived.take st.taken)).2 [r] =
      (a.write P r.name r.seqid, (answer h r.name st.handler).2) := by
    simp only [answers, ← hst.handler, ha, Option.elim_some, List.append_nil]
  refine ⟨{ st with
    requests := (st.arrived.drop (st.taken + 1)).flatMap (·.write P)
    written := st.written ++ a.write P r.name r.seqid
    handler := (answer h r.name st.handler).2
    taken := st.taken + 1 }, ?_, rfl, rfl, hst.arrived_ok, hlt, rfl, ?_, ?_⟩
  · rw [Server.step, if_neg hne, hread]
  · rw [htake, answers_append, hone, hst.written]
  · rw [htake, answers_append, hone]

theorem Server.Answers.step (hP : P.Lawful) (hD : D.Lawful P) (hh : h.StdOnly) {s₀ : σ}
    {st st' : Server β σ} {a : ServerAct β} (hst : st.Answers P h s₀) (ha : a.Ok P)
    (hs : st.step P D h a = some st') : st'.Answers P h s₀ := by
  cases a with
  | arrive r =>
    cases hs
    have hdrop : (st.arrived ++ [r]).drop st.taken = st.arrived.drop st.taken ++ [r] :=
      List.drop_append_of_le_length hst.taken_le
    have htake : (st.arrived ++ [r]).take st.taken = st.arrived.take st.taken :=
      List.take_append_of_le_length hst.taken_le
    refine ⟨fun q hq => ?_, ?_, ?_, ?_, ?_⟩
    · rcases List.mem_append.mp hq with hq | hq
      · exact hst.arrived_ok q hq
      · rw [List.mem_singleton.mp hq]
        exact ha
    · rw [List.length_append]
      exact Nat.le_add_right_of_le hst.taken_le
    · simp only [hdrop, hst.requests, List.flatMap_append, List.flatMap_singleton]
    · simp only [htake, hst.written]
    · simp only [htake, hst.handler]
  | serve =>
    have hlt : st.taken < st.arrived.length := by
      by_contra hge
      have hnil : st.requests = [] := by
        rw [hst.requests, List.drop_eq_nil_of_le (Nat.not_lt.mp hge), List.flatMap_nil]
      rw [Server.step, if_pos hnil] at hs
      cases hs
    obtain ⟨st'', hs', -, -, hst''⟩ := hst.serve hP hD hh hlt
    rw [hs] at hs'
    cases hs'
    exact hst''

/-- The library's `process`: a message that is not a client's is refused. -/
def dispatcher (P : TProtocol β) : Dispatcher β σ := fun dispatchCall => do
  let (fname, mtype, seqid) ← P.readMessageBegin
  if mtype = .call ∨ mtype = .oneway then return some (← dispatchCall fname seqid)
    else return none

theorem dispatcher_lawful (hP : P.Lawful) : (dispatcher P : Dispatcher β σ).Lawful P := by
  intro dispatchCall name mtype seqid body w hn hm hbody
  refine (hP.message name mtype seqid hn).bind ?_
  simp only [hm, if_true]
  exact hbody.bind_nil (Reads.pure _)

end NetworkDemo.Rpc
