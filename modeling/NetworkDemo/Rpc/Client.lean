import NetworkDemo.Rpc.Processor

/-!
# The client

A call of `TestProtoClient` is two halves: `send_*` writes a request, and `recv_*` reads
the answer and returns what is in it or throws it. The two may be called apart, several
requests being sent before the first answer is read. The sequence id is 0 always; the
answers come in the order of the requests.

A client and a server are on the two ends of a connection: `Pipe` is the state of both
and of the two streams between them, and either side may go on at any time.

* `recvCall_reads` — an answer is read to its last byte, and taken for what it is.
* `pipelined_calls` — in every run the calls that have ended have returned, or thrown, what
  the handler would have when called directly, one call after the other in the order in
  which they began; and as long as a call has not ended one of the two sides can go on. A
  string that the caller passes to `send` does not go over the wire: the handler is given an
  empty one (`Call.fresh`).
-/

namespace NetworkDemo.Rpc

open Foundations Foundations.Reader

variable {β α σ : Type} (P : TProtocol β)

/-! ### The two halves -/

/-- A `send_*`. -/
def sendCall (name : String) (pargsWrite : List β) (seqid : I32) : List β :=
  P.writeMessageBegin name .call seqid ++ (pargsWrite ++ P.writeMessageEnd)

/-- `send_remoteTime`. -/
def sendRemoteTime : List β := sendCall P "remoteTime" (remoteTimePargsWrite P) 0

/-- `send_send`. -/
def sendSend : List β := sendCall P "send" (sendPargsWrite P) 0

/-- The message is not the one that was expected: skip what it says. -/
def skipUnless (p : Prop) [Decidable p] : Read β Unit := do
  if p then return () else
    P.skip .struct
    P.readMessageEnd

/-- A `recv_*`; `ret` is what `_return` holds before. A message of another type or another name is
skipped, and then the result is read from what comes after it. -/
def recvCall (presultRead : Result α → Read β (Result α)) (name failed : String) (ret : α) :
    Read β α := do
  let (fname, mtype, _) ← P.readMessageBegin
  if mtype = .exception then
    let x ← P.readException
    P.readMessageEnd
    fail (.application x)
  else
    skipUnless P (mtype = .reply)
    skipUnless P (fname = name)
    let result ← presultRead ⟨ret, false⟩
    P.readMessageEnd
    if result.isset = true then return result.success
      else fail (.application ⟨.missingResult, failed⟩)

/-- `recv_remoteTime`. -/
def recvRemoteTime (ret : I64) : Read β I64 :=
  recvCall P (remoteTimePresultRead P) "remoteTime" "remoteTime failed: unknown result" ret

/-- `recv_send`. -/
def recvSend (ret : String) : Read β String :=
  recvCall P (sendPresultRead P) "send" "send failed: unknown result" ret

/-! ### Calls -/

/-- A call, with what `_return` holds before. -/
inductive Call where
  | remoteTime (ret : I64)
  | send (ret : String)
  deriving DecidableEq

/-- What a call returns. -/
inductive Value where
  | time (v : I64)
  | data (s : String)
  deriving DecidableEq

namespace Call

/-- The method. -/
def name : Call → String
  | .remoteTime _ => "remoteTime"
  | .send _ => "send"

/-- The request. -/
def request : Call → Request β
  | .remoteTime _ => ⟨"remoteTime", .call, 0, "TestProto_remoteTime_pargs", []⟩
  | .send _ => ⟨"send", .call, 0, "TestProto_send_pargs", []⟩

/-- The first half. -/
def write : Call → List β
  | .remoteTime _ => sendRemoteTime P
  | .send _ => sendSend P

/-- The second half. -/
def recv : Call → Read β Value
  | .remoteTime ret => do return .time (← recvRemoteTime P ret)
  | .send ret => do return .data (← recvSend P ret)

/-- The call that the handler gets when a call comes over the wire: what `_return` holds before
stays with the caller. -/
def fresh : Call → Call
  | .remoteTime ret => .remoteTime ret
  | .send _ => .send ""

end Call

/-! ### Direct calls -/

/-- What a caller gets: a `std::exception` comes as a `TApplicationException` with its text. -/
def outcomeOf (ret : α → Value) : Except Thrown α → Except TException Value
  | .ok v => .ok (ret v)
  | .error (.std what) => .error (.application ⟨.unknown, what⟩)
  | .error .other => .error (.transport "No more data to read.")

/-- The handler called directly. -/
def Call.direct (h : TestProtoIf σ) (s : σ) : Call → Except TException Value × σ
  | .remoteTime _ => (h.remoteTime s).map (outcomeOf .time) id
  | .send ret => (h.send ret s).map (outcomeOf .data) id

/-- One call after the other. -/
def directAll (h : TestProtoIf σ) (s : σ) : List Call → List (Except TException Value) × σ
  | [] => ([], s)
  | c :: cs =>
    ((c.direct h s).1 :: (directAll h (c.direct h s).2 cs).1, (directAll h (c.direct h s).2 cs).2)

theorem directAll_append (h : TestProtoIf σ) (s : σ) (cs ds : List Call) :
    directAll h s (cs ++ ds) =
      ((directAll h s cs).1 ++ (directAll h (directAll h s cs).2 ds).1,
        (directAll h (directAll h s cs).2 ds).2) := by
  induction cs generalizing s with
  | nil => rfl
  | cons c cs ih => simp only [List.cons_append, directAll, ih]

theorem length_directAll (h : TestProtoIf σ) (s : σ) (cs : List Call) :
    (directAll h s cs).1.length = cs.length := by
  induction cs generalizing s with
  | nil => rfl
  | cons c cs ih => simp only [directAll, List.length_cons, ih]

/-- What the handler does when some calls come over the wire, one after the other. -/
def freshAll (h : TestProtoIf σ) (s : σ) (cs : List Call) : List (Except TException Value) × σ :=
  directAll h s (cs.map Call.fresh)

theorem freshAll_append (h : TestProtoIf σ) (s : σ) (cs ds : List Call) :
    freshAll h s (cs ++ ds) =
      ((freshAll h s cs).1 ++ (freshAll h (freshAll h s cs).2 ds).1,
        (freshAll h (freshAll h s cs).2 ds).2) := by
  rw [freshAll, List.map_append, directAll_append]
  rfl

theorem length_freshAll (h : TestProtoIf σ) (s : σ) (cs : List Call) :
    (freshAll h s cs).1.length = cs.length := by
  rw [freshAll, length_directAll, List.length_map]

theorem freshAll_one (h : TestProtoIf σ) (s : σ) (c : Call) :
    freshAll h s [c] = ([(c.fresh.direct h s).1], (c.fresh.direct h s).2) :=
  rfl

theorem freshAll_take (h : TestProtoIf σ) (s : σ) (cs : List Call) {n : ℕ} (hn : n ≤ cs.length) :
    (freshAll h s (cs.take n)).1 = (freshAll h s cs).1.take n := by
  have hlen : (freshAll h s (cs.take n)).1.length = n := by
    rw [length_freshAll, List.length_take_of_le hn]
  conv_rhs => rw [← List.take_append_drop n cs, freshAll_append]
  exact (List.take_left' hlen).symm

/-- The handler does not look at the string that it fills in. -/
def TestProtoIf.Blind (h : TestProtoIf σ) : Prop := ∀ ret s, h.send ret s = h.send "" s

theorem freshAll_eq {h : TestProtoIf σ} (hb : h.Blind) (s : σ) (cs : List Call) :
    freshAll h s cs = directAll h s cs := by
  have hone : ∀ (c : Call) s, c.fresh.direct h s = c.direct h s := by
    intro c s
    cases c with
    | remoteTime => rfl
    | send ret => simp only [Call.fresh, Call.direct, hb ret s]
  unfold freshAll
  induction cs generalizing s with
  | nil => rfl
  | cons c cs ih => simp only [List.map_cons, directAll, hone, ih]

/-- What the handler returns and throws can be sent. -/
structure TestProtoIf.Sendable (P : TProtocol β) (h : TestProtoIf σ) : Prop where
  remoteTime_name : P.carries "remoteTime"
  send_name : P.carries "send"
  data : ∀ s v, (h.send "" s).1 = .ok v → P.carries v
  remoteTime_what : ∀ s what, (h.remoteTime s).1 = .error (.std what) → P.carries what
  send_what : ∀ s what, (h.send "" s).1 = .error (.std what) → P.carries what

variable {P} {h : TestProtoIf σ} {D : Dispatcher β σ}

theorem skipUnless_reads {p : Prop} [Decidable p] (hp : p) :
    Reads (skipUnless P p) [] (.ok ()) := by
  rw [skipUnless, if_pos hp]
  exact Reads.pure ()

theorem recvCall_reply (hP : P.Lawful) {name : String} (hn : P.carries name) (failed : String)
    {presultRead : Result α → Read β (Result α)} {resultWrite : Result α → List β}
    (seqid : I32) {v ret : α}
    (hread : Reads (presultRead ⟨ret, false⟩) (resultWrite ⟨v, true⟩) (.ok ⟨v, true⟩)) :
    Reads (recvCall P presultRead name failed ret) (writeReply P resultWrite name seqid v)
      (.ok v) := by
  refine (hP.message name .reply seqid hn).bind ?_
  have hrest : Reads (do
      let result ← presultRead ⟨ret, false⟩
      P.readMessageEnd
      if result.isset = true then return result.success
        else fail (.application ⟨.missingResult, failed⟩))
      (resultWrite ⟨v, true⟩ ++ P.writeMessageEnd) (.ok v) :=
    hread.bind (hP.messageEnd.bind_nil (Reads.pure v))
  exact (skipUnless_reads rfl).bind ((skipUnless_reads rfl).bind hrest)

theorem recvCall_thrown (hP : P.Lawful) {presultRead : Result α → Read β (Result α)}
    {name fname : String} (hn : P.carries fname) (failed : String) (seqid : I32)
    {x : TApplicationException} (hx : P.carries x.message) (ret : α) :
    Reads (recvCall P presultRead name failed ret) (writeThrown P fname seqid x)
      (.error (.application x)) :=
  (hP.message fname .exception seqid hn).bind ((hP.exception x hx).bind (hP.messageEnd.bind_nil
    (Reads.fail _)))

/-- The result of a call of `remoteTime` is read back. -/
theorem remoteTimePresult_reads (hP : P.Lawful) (ret v : I64) :
    Reads (remoteTimePresultRead P ⟨ret, false⟩) (remoteTimeResultWrite P ⟨v, true⟩)
      (.ok ⟨v, true⟩) :=
  (readResult_back hP (i64Codec_lawful hP) "TestProto_remoteTime_result").written ⟨v, true⟩
    ⟨ret, false⟩ fun _ => trivial

/-- The result of a call of `send` is read back. -/
theorem sendPresult_reads (hP : P.Lawful) (ret : String) {v : String} (hv : P.carries v) :
    Reads (sendPresultRead P ⟨ret, false⟩) (sendResultWrite P ⟨v, true⟩) (.ok ⟨v, true⟩) :=
  (readResult_back hP (stringCodec_lawful hP) "TestProto_send_result").written ⟨v, true⟩
    ⟨ret, false⟩ fun _ => hv

/-- **The answer to a call** gives the call what a direct one would have got, the handler having
been given an empty string. -/
theorem Call.reads (hP : P.Lawful) (hh : h.Sendable P) (hstd : h.StdOnly) (c : Call)
    (seqid : I32) (s : σ) :
    ∃ a, answer h c.name s = (some a, (c.fresh.direct h s).2) ∧
      Reads (c.recv P) (a.write P c.name seqid) (c.fresh.direct h s).1 := by
  cases c with
  | remoteTime ret =>
    have hdirect : Call.direct h s (Call.remoteTime ret).fresh =
        (h.remoteTime s).map (outcomeOf .time) id := rfl
    have hans : answer h (Call.remoteTime ret).name s = (h.remoteTime s).map (answerOf .time) id :=
      rfl
    rw [hdirect, hans]
    rcases hres : h.remoteTime s with ⟨(what | _) | v, s'⟩
    · refine ⟨_, rfl, Reads.bind_error (recvCall_thrown hP hh.remoteTime_name _ seqid
        (hh.remoteTime_what s what ?_) ret)⟩
      rw [hres]
    · exact absurd (congrArg Prod.fst hres) (hstd.1 s)
    · exact ⟨_, rfl, (recvCall_reply hP hh.remoteTime_name _ seqid
        (remoteTimePresult_reads hP ret v)).bind_nil (Reads.pure _)⟩
  | send ret =>
    have hdirect : Call.direct h s (Call.send ret).fresh =
        (h.send "" s).map (outcomeOf .data) id := rfl
    have hans : answer h (Call.send ret).name s = (h.send "" s).map (answerOf .data) id := rfl
    rw [hdirect, hans]
    rcases hres : h.send "" s with ⟨(what | _) | v, s'⟩
    · refine ⟨_, rfl, Reads.bind_error (recvCall_thrown hP hh.send_name _ seqid
        (hh.send_what s what ?_) ret)⟩
      rw [hres]
    · exact absurd (congrArg Prod.fst hres) (hstd.2 s)
    · refine ⟨_, rfl, (recvCall_reply hP hh.send_name _ seqid
        (sendPresult_reads hP ret (hh.data s v ?_))).bind_nil (Reads.pure _)⟩
      rw [hres]

theorem Call.write_eq (c : Call) : c.write P = c.request.write P := by cases c <;> rfl

theorem Call.request_name (c : Call) : (c.request : Request β).name = c.name := by cases c <;> rfl

theorem Call.request_ok (hh : h.Sendable P) (c : Call) : (c.request : Request β).Ok P := by
  cases c with
  | remoteTime =>
    exact ⟨.inl rfl, hh.remoteTime_name, by simp [AllSkippable, Call.request],
      fun hne => absurd rfl hne⟩
  | send =>
    exact ⟨.inl rfl, hh.send_name, by simp [AllSkippable, Call.request],
      fun _ hne => absurd rfl hne⟩

theorem Call.name_carried (hh : h.Sendable P) (c : Call) : P.carries c.name := by
  cases c with
  | remoteTime => exact hh.remoteTime_name
  | send => exact hh.send_name

theorem Answer.write_ne_nil (hP : P.Lawful) {name : String} (hn : P.carries name) (seqid : I32)
    (a : Answer) :
    a.write P name seqid ≠ [] := by
  intro h
  cases a with
  | time => exact hP.writeMessageBegin_ne_nil _ seqid hn (List.append_eq_nil_iff.mp h).1
  | data => exact hP.writeMessageBegin_ne_nil _ seqid hn (List.append_eq_nil_iff.mp h).1
  | thrown => exact hP.writeMessageBegin_ne_nil _ seqid hn (List.append_eq_nil_iff.mp h).1

/-! ### A connection -/

/-- The two sides and what is between them. -/
structure Pipe (β σ : Type) where
  /-- Requests that the server has not read. -/
  requests : List β
  /-- Answers that the client has not read. -/
  answers : List β
  handler : σ
  /-- The calls that have begun, in order. -/
  calls : List Call
  /-- What became of those that have ended. -/
  outcomes : List (Except TException Value)
  deriving DecidableEq

/-- What happens next. -/
inductive PipeAct where
  /-- The client calls a `send_*`. -/
  | begin (c : Call)
  /-- The server takes a request. -/
  | serve
  /-- The client calls the `recv_*` of the first call that has not ended. -/
  | finish

/-- One step; reading waits for something to read. -/
def Pipe.step (P : TProtocol β) (D : Dispatcher β σ) (h : TestProtoIf σ) (st : Pipe β σ) :
    PipeAct → Option (Pipe β σ)
  | .begin c => some { st with requests := st.requests ++ c.write P, calls := st.calls ++ [c] }
  | .serve =>
    if st.requests = [] then none
    else match Rpc.serve P D h st.handler st.requests with
    | (.ok (some out, s), _, rest) =>
      some { st with requests := rest, answers := st.answers ++ out, handler := s }
    | _ => none
  | .finish =>
    match st.calls[st.outcomes.length]? with
    | none => none
    | some c =>
      if st.answers = [] then none
      else some { st with
        answers := (c.recv P st.answers).2.2, outcomes := st.outcomes ++ [(c.recv P st.answers).1] }

/-- A client and a server, connected. -/
def pipe (P : TProtocol β) (D : Dispatcher β σ) (h : TestProtoIf σ) (s₀ : σ) :
    Lts (Pipe β σ) PipeAct where
  init st := st = ⟨[], [], s₀, [], []⟩
  step st a st' := st.step P D h a = some st'

/-- The answers to some calls, on the wire. -/
def answersTo (P : TProtocol β) (h : TestProtoIf σ) (s : σ) : List Call → List β
  | [] => []
  | c :: cs =>
    (answer h c.name s).1.elim [] (·.write P c.name 0) ++ answersTo P h (c.fresh.direct h s).2 cs

theorem answersTo_append (s : σ) (cs ds : List Call) :
    answersTo P h s (cs ++ ds) = answersTo P h s cs ++ answersTo P h (freshAll h s cs).2 ds := by
  induction cs generalizing s with
  | nil => rfl
  | cons c cs ih =>
    simp only [List.cons_append, answersTo, ih, List.append_assoc]
    rfl

/-- The calls are of three kinds: those that have ended, those whose answers are on their way, and
those whose requests are. -/
structure Pipe.Split (P : TProtocol β) (h : TestProtoIf σ) (s₀ : σ) (st : Pipe β σ)
    (ended answered waiting : List Call) :
    Prop where
  calls : st.calls = ended ++ answered ++ waiting
  outcomes : st.outcomes = (freshAll h s₀ ended).1
  answers : st.answers = answersTo P h (freshAll h s₀ ended).2 answered
  handler : st.handler = (freshAll h s₀ (ended ++ answered)).2
  requests : st.requests = waiting.flatMap (·.write P)

variable {s₀ : σ} {st st' : Pipe β σ} {ended answered waiting : List Call}

/-- The server takes a request: its answer is on its way. -/
theorem Pipe.Split.serve (hP : P.Lawful) (hD : D.Lawful P) (hh : h.Sendable P) (hstd : h.StdOnly)
    {c : Call}
    (hst : st.Split P h s₀ ended answered (c :: waiting)) :
    ∃ st', st.step P D h .serve = some st' ∧ st'.Split P h s₀ ended (answered ++ [c]) waiting := by
  obtain ⟨a, ha, -⟩ := Call.reads hP hh hstd c 0 st.handler
  have hok : (c.request : Request β).Ok P := c.request_ok hh
  have hread := serve_reads (h := h) hP hD hok st.handler (waiting.flatMap (·.write P))
  have hwait : st.requests = (c.request : Request β).write P ++ waiting.flatMap (·.write P) := by
    rw [hst.requests, List.flatMap_cons, Call.write_eq]
  have hseq : (c.request : Request β).seqid = 0 := by cases c <;> rfl
  have hne : st.requests ≠ [] := by
    rw [hwait]
    exact fun h => Request.write_ne_nil hP hok (List.append_eq_nil_iff.mp h).1
  rw [← hwait, work, Call.request_name, hseq, ha, Option.map_some] at hread
  refine ⟨{ st with
    requests := waiting.flatMap (·.write P)
    answers := st.answers ++ a.write P c.name 0
    handler := (c.fresh.direct h st.handler).2 }, ?_, ⟨?_, hst.outcomes, ?_, ?_, rfl⟩⟩
  · rw [Pipe.step, if_neg hne, hread]
  · rw [hst.calls]
    simp only [List.append_assoc, List.singleton_append]
  · have hlast : answersTo P h st.handler [c] = a.write P c.name 0 := by simp [answersTo, ha]
    rw [answersTo_append, ← hst.answers, ← hlast, hst.handler, freshAll_append]
  · rw [← List.append_assoc, freshAll_append, ← hst.handler]
    rfl

/-- The client reads an answer: the call has ended. -/
theorem Pipe.Split.finish (hP : P.Lawful) (hh : h.Sendable P) (hstd : h.StdOnly) {c : Call}
    (hst : st.Split P h s₀ ended (c :: answered) waiting) :
    ∃ st', st.step P D h .finish = some st' ∧ st'.Split P h s₀ (ended ++ [c]) answered waiting := by
  obtain ⟨a, ha, hread⟩ := Call.reads hP hh hstd c 0 (freshAll h s₀ ended).2
  have hlen : st.calls[st.outcomes.length]? = some c := by
    rw [hst.calls, hst.outcomes, length_freshAll, List.append_assoc,
      List.getElem?_append_right le_rfl, Nat.sub_self]
    rfl
  have hans : st.answers = a.write P c.name 0 ++ answersTo P h
      (c.fresh.direct h (freshAll h s₀ ended).2).2 answered := by
    rw [hst.answers, answersTo, ha]
    rfl
  have hne : st.answers ≠ [] := by
    rw [hans]
    exact fun h => Answer.write_ne_nil hP (c.name_carried hh) 0 a (List.append_eq_nil_iff.mp h).1
  have hrecv := hread (answersTo P h (c.fresh.direct h (freshAll h s₀ ended).2).2 answered)
  rw [← hans] at hrecv
  refine ⟨{ st with
    answers := (c.recv P st.answers).2.2
    outcomes := st.outcomes ++ [(c.recv P st.answers).1] }, ?_, ⟨?_, ?_, ?_, ?_, hst.requests⟩⟩
  · rw [Pipe.step, hlen]
    dsimp only
    rw [if_neg hne]
  · rw [hst.calls]
    simp only [List.append_assoc, List.singleton_append]
  · dsimp only
    rw [hrecv, hst.outcomes, freshAll_append]
    rfl
  · dsimp only
    rw [hrecv, freshAll_append]
    rfl
  · rw [hst.handler]
    simp only [List.append_assoc, List.singleton_append]

theorem Pipe.Split.step (hP : P.Lawful) (hD : D.Lawful P) (hh : h.Sendable P) (hstd : h.StdOnly)
    {a : PipeAct}
    (hst : st.Split P h s₀ ended answered waiting) (hs : st.step P D h a = some st') :
    ∃ ended answered waiting, st'.Split P h s₀ ended answered waiting := by
  cases a with
  | begin c =>
    cases hs
    refine ⟨ended, answered, waiting ++ [c], ?_, hst.outcomes, hst.answers, hst.handler, ?_⟩
    · simp only [hst.calls, List.append_assoc]
    · simp only [hst.requests, List.flatMap_append, List.flatMap_singleton]
  | serve =>
    cases waiting with
    | nil =>
      have hnil : st.requests = [] := hst.requests
      rw [Pipe.step, if_pos hnil] at hs
      cases hs
    | cons c waiting =>
      obtain ⟨st'', hs', hst''⟩ := hst.serve hP hD hh hstd
      rw [hs] at hs'
      cases hs'
      exact ⟨_, _, _, hst''⟩
  | finish =>
    cases answered with
    | nil =>
      have hnil : st.answers = [] := hst.answers
      rw [Pipe.step] at hs
      split at hs
      · cases hs
      · rw [if_pos hnil] at hs
        cases hs
    | cons c answered =>
      obtain ⟨st'', hs', hst''⟩ := hst.finish hP hh hstd
      rw [hs] at hs'
      cases hs'
      exact ⟨_, _, _, hst''⟩

/-- **Remote calls are direct calls**, of a handler whose values and exceptions can be sent, a
`send` being given an empty string, or any string if the handler does not look at it. In every run
the calls that have ended have had the outcomes of direct calls, in the order in which they began. If
one has not ended, one of the two sides can go on; if all have, nothing is left on the wire, and the
handler is where direct calls would have left it. -/
theorem pipelined_calls (hP : P.Lawful) (hD : D.Lawful P) (hh : h.Sendable P) (hstd : h.StdOnly)
    (hr : (pipe P D h s₀).Reachable st) :
    st.outcomes = (freshAll h s₀ (st.calls.take st.outcomes.length)).1 ∧
      (h.Blind → st.outcomes = (directAll h s₀ (st.calls.take st.outcomes.length)).1) ∧
      (st.outcomes.length < st.calls.length → ∃ a, a ∈ [PipeAct.serve, .finish] ∧
        (st.step P D h a).isSome = true) ∧
      (st.outcomes.length = st.calls.length → st.requests = [] ∧ st.answers = [] ∧
        st.handler = (freshAll h s₀ st.calls).2) := by
  obtain ⟨ended, answered, waiting, hst⟩ : ∃ ended answered waiting,
      st.Split P h s₀ ended answered waiting := by
    refine hr.invariant (I := fun st => ∃ ended answered waiting,
      st.Split P h s₀ ended answered waiting)
      (fun s hs => ?_) fun s a s' _ hs _ hstep => ?_
    · rw [hs]
      exact ⟨[], [], [], rfl, rfl, rfl, rfl, rfl⟩
    · obtain ⟨_, _, _, hs⟩ := hs
      exact hs.step hP hD hh hstd hstep
  have hlen : st.outcomes.length = ended.length := by rw [hst.outcomes, length_freshAll]
  have hcalls : st.calls.length = ended.length + answered.length + waiting.length := by
    rw [hst.calls, List.length_append, List.length_append]
  have houtcomes : st.outcomes = (freshAll h s₀ (st.calls.take st.outcomes.length)).1 := by
    rw [hlen, hst.calls, List.append_assoc, List.take_left, hst.outcomes]
  refine ⟨houtcomes, fun hb => ?_, fun hlt => ?_, fun heq => ?_⟩
  · rw [← freshAll_eq hb]
    exact houtcomes
  · rcases answered with _ | ⟨c, answered⟩
    · rcases waiting with _ | ⟨c, waiting⟩
      · rw [hlen, hcalls] at hlt
        exact absurd hlt (by simp)
      · obtain ⟨st', hs, -⟩ := hst.serve hP hD hh hstd
        exact ⟨.serve, by simp, by rw [hs]; rfl⟩
    · obtain ⟨st', hs, -⟩ := hst.finish hP hh hstd
      exact ⟨.finish, by simp, by rw [hs]; rfl⟩
  · have ha : answered = [] := List.length_eq_zero_iff.mp (by omega)
    have hw : waiting = [] := List.length_eq_zero_iff.mp (by omega)
    subst ha hw
    refine ⟨hst.requests, hst.answers, ?_⟩
    rw [hst.handler, hst.calls]
    simp only [List.append_nil]

/-- A handler that counts the calls, and has no data to send. -/
def counting : TestProtoIf ℕ :=
  ⟨fun n => (.ok (BitVec.ofNat 64 n), n + 1), fun _ n => (.error (.std "no data"), n + 1)⟩

theorem counting_stdOnly : counting.StdOnly := by
  constructor <;> intro s hs <;> cases hs

theorem counting_sendable : counting.Sendable binary where
  remoteTime_name := show BinaryCarries "remoteTime" by decide
  send_name := show BinaryCarries "send" by decide
  data _ _ h := by cases h
  remoteTime_what _ _ h := by cases h
  send_what _ _ h := by
    cases h
    exact show BinaryCarries "no data" by decide

/-- Two calls begin, both are served, and one ends. -/
def twoCalls : List PipeAct := [.begin (.send "x"), .begin (.remoteTime 7), .serve, .serve, .finish]

/-- After them. -/
def oneEnded : Pipe Byte ℕ :=
  ⟨[], writeReply binary (remoteTimeResultWrite binary) "remoteTime" 0 1, 2,
    [.send "x", .remoteTime 7],
    [.error (.application ⟨.unknown, "no data"⟩)]⟩

/-- Between the two answers. -/
theorem pipelined_calls_two :
    oneEnded.outcomes = (freshAll counting 0 (oneEnded.calls.take oneEnded.outcomes.length)).1 ∧
      (counting.Blind → oneEnded.outcomes =
        (directAll counting 0 (oneEnded.calls.take oneEnded.outcomes.length)).1) ∧
      (oneEnded.outcomes.length < oneEnded.calls.length →
        ∃ a, a ∈ [PipeAct.serve, .finish] ∧
          (oneEnded.step binary (dispatcher binary) counting a).isSome = true) ∧
      (oneEnded.outcomes.length = oneEnded.calls.length →
        oneEnded.requests = [] ∧ oneEnded.answers = [] ∧
          oneEnded.handler = (freshAll counting 0 oneEnded.calls).2) := by
  refine pipelined_calls binary_lawful (dispatcher_lawful binary_lawful) counting_sendable
    counting_stdOnly ?_
  have hrun : exec (Pipe.step binary (dispatcher binary) counting) ⟨[], [], 0, [], []⟩ twoCalls =
      some oneEnded := by
    decide
  exact Lts.Reach.exec (fun _ _ _ h => h) (.init rfl) (fun _ _ _ => trivial) hrun

end NetworkDemo.Rpc
