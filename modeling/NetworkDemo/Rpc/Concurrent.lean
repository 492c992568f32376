import NetworkDemo.Rpc.Client

/-!
# The concurrent client

A `TestProtoConcurrentClient` is shared by threads. Each call has a sequence id of its own;
the answers may come in any order, and a thread that reads the header of another's answer
hands it over and waits.

## The model

One step is one stretch of a call: getting a sequence id, writing the request, getting the
read mutex, getting a header (one handed over, or else the next on the stream), what is done
with the header, and coming back from `waitForWork`. The server answers the requests that it
has got in any order and at any time.

`TConcurrentClientSyncInfo` is the library's, and a parameter: `SyncInfo γ` has its methods,
over a state `γ`. Of it the code relies on `SyncInfo.Lawful`: a new sequence id is not one of
a call under way; `getPending` gives the header that was handed over, once; a header whose
sequence id is that of a call under way can be handed over; a sentry that goes after a
`commit` does nothing but take its call away. That calls come to their answers also takes
`SyncInfo.Live`, which says who comes back from `waitForWork`. The two mutexes are in the
model: a request is written under the write mutex, as one step; the read mutex is `reader`,
and `waitForWork` lets it go and returns with it.

* `moves_of_step` — what a step can do, read off the definition once.
* `recvCallOf_reads` — the rest of an answer is read by the call that it is for.
-/

namespace NetworkDemo.Rpc.Concurrent

open Foundations Foundations.Reader

variable {β α : Type} (P : TProtocol β)

/-! ### Reading the rest of a message -/

/-- A `recv_*` of the concurrent client, from a header with its sequence id on. What is returned or
thrown after a `commit` is the value; what is thrown without one is the failure. -/
def recvBody (presultRead : Result α → Read β (Result α)) (name failed : String) (ret : α)
    (fname : String) (mtype : TMessageType) : Read β (Except TException α) := do
  if mtype = .exception then
    let x ← P.readException
    P.readMessageEnd
    return .error (.application x)
  else
    skipUnless P (mtype = .reply)
    if fname ≠ name then
      P.skip .struct
      P.readMessageEnd
      fail (.protocol .invalidData)
    else
      let result ← presultRead ⟨ret, false⟩
      P.readMessageEnd
      if result.isset = true then return .ok result.success
        else fail (.application ⟨.missingResult, failed⟩)

/-- `recv_remoteTime`. -/
def recvRemoteTime (ret : I64) : String → TMessageType → Read β (Except TException I64) :=
  recvBody P (remoteTimePresultRead P) "remoteTime" "remoteTime failed: unknown result" ret

/-- `recv_send`. -/
def recvSend (ret : String) : String → TMessageType → Read β (Except TException String) :=
  recvBody P (sendPresultRead P) "send" "send failed: unknown result" ret

/-- `send_remoteTime` and `send_send`, with a sequence id. -/
def sendCallOf (seqid : I32) : Call → List β
  | .remoteTime _ => sendCall P "remoteTime" (remoteTimePargsWrite P) seqid
  | .send _ => sendCall P "send" (sendPargsWrite P) seqid

/-- The `recv_*` of a call. -/
def recvCallOf (fname : String) (mtype : TMessageType) : Call → Read β (Except TException Value)
  | .remoteTime ret => do return (← recvRemoteTime P ret fname mtype).map .time
  | .send ret => do return (← recvSend P ret fname mtype).map .data

/-! ### What the threads share -/

/-- A message's header. -/
structure Head where
  fname : String
  mtype : TMessageType
  rseqid : I32
  deriving DecidableEq

/-- `TConcurrentClientSyncInfo`, and the destructor of a `TConcurrentRecvSentry`, which calls it. -/
structure SyncInfo (γ : Type) where
  /-- Its constructor. -/
  new : γ
  generateSeqId : γ → Except TException I32 × γ
  /-- The header that was handed over, if there is one. -/
  getPending : γ → Except TException (Option Head) × γ
  updatePending : Head → γ → Except TException Unit × γ
  /-- The state when it returns; none as long as it waits. -/
  waitForWork : I32 → γ → Option γ
  /-- A recv sentry goes, with a `commit` or without. -/
  leave : I32 → Bool → γ → γ

/-- What the threads know of its state. -/
structure SyncView where
  /-- The sequence ids of the calls under way. -/
  registered : I32 → Bool
  /-- The header that was handed over. -/
  pending : Option Head
  /-- The client is unusable. -/
  stop : Bool

variable {γ : Type} (S : SyncInfo γ)

/-- **What the code relies on.** -/
structure SyncInfo.Lawful (V : γ → SyncView) : Prop where
  new : V S.new = ⟨fun _ => false, none, false⟩
  /-- A new sequence id is not one of a call under way. -/
  generated {g g' : γ} {id : I32} : S.generateSeqId g = (.ok id, g') →
    (V g).registered id = false ∧
      V g' = { V g with registered := Function.update (V g).registered id true }
  /-- Or there is none, and nothing has changed. -/
  refused {g g' : γ} {e : TException} : S.generateSeqId g = (.error e, g') → V g' = V g
  got (g : γ) : (V g).stop = false →
    (S.getPending g).1 = .ok (V g).pending ∧ V (S.getPending g).2 = { V g with pending := none }
  updated (hd : Head) (g : γ) : (V g).registered hd.rseqid = true →
    (S.updatePending hd g).1 = .ok () ∧
      V (S.updatePending hd g).2 = { V g with pending := some hd }
  waited {id : I32} {g g' : γ} : S.waitForWork id g = some g' → V g' = V g
  left (id : I32) (g : γ) :
    V (S.leave id true g) = { V g with registered := Function.update (V g).registered id false }

/-- **What threads that wait rely on**, where `woken` says that the last call that was committed has
woken somebody up. -/
structure SyncInfo.Live (V : γ → SyncView) (woken : γ → Bool) : Prop where
  /-- The call whose header was handed over comes back. -/
  handed {g : γ} {hd : Head} : (V g).pending = some hd →
    (S.waitForWork hd.rseqid g).isSome = true
  committed (id : I32) (g : γ) : woken (S.leave id true g) = true
  /-- A new call changes nothing. -/
  generated {g : γ} : woken g = true → woken (S.generateSeqId g).2 = true
  /-- One of the calls under way comes back, or would not wait. -/
  back {g : γ} {id : I32} : woken g = true → (V g).registered id = true →
    ∃ id', (V g).registered id' = true ∧ (S.waitForWork id' g).isSome = true

/-! ### The system -/

/-- A call under way. -/
structure Issue where
  serial : ℕ
  id : I32
  call : Call
  deriving DecidableEq

/-- Where a thread is. -/
inductive Pc where
  | idle
  /-- It has a sequence id. -/
  | generated (i : Issue)
  /-- The request is written. -/
  | sent (i : Issue)
  /-- At the top of the loop, with the read mutex. -/
  | top (i : Issue)
  /-- It has a header. -/
  | header (i : Issue) (hd : Head)
  /-- In `waitForWork`. -/
  | waiting (i : Issue)
  deriving DecidableEq

/-- The client, and what is on both ends of its connection. -/
structure State (β γ : Type) where
  /-- What has come from the server and not been read. -/
  input : List β
  output : List β
  sync : γ
  /-- Who has the read mutex. -/
  reader : Option ℕ
  pc : ℕ → Pc
  /-- How many calls have begun. -/
  issued : ℕ
  /-- The calls that have not got a sequence id, with what they have thrown. -/
  refused : List (Call × TException)
  /-- The requests that the server has got and not answered. -/
  asked : List Issue
  /-- The answers, in order. -/
  given : List (Issue × Answer)
  /-- What became of the calls that have ended, in order. -/
  ended : List (Issue × Except TException Value)

/-- What happens next. -/
inductive Act where
  /-- `generateSeqId`. -/
  | begin (t : ℕ) (c : Call)
  /-- The rest of a `send_*`. -/
  | send (t : ℕ)
  /-- The recv sentry. -/
  | lock (t : ℕ)
  /-- `getPending`, or else `readMessageBegin`. -/
  | fetch (t : ℕ)
  /-- The rest of the turn. -/
  | handle (t : ℕ)
  /-- `waitForWork` returns. -/
  | wake (t : ℕ)
  /-- The server answers. -/
  | answer (i : Issue) (a : Answer)

namespace State

variable (st : State β γ)

/-- Thread `t` goes on to `pc`. -/
def goto (t : ℕ) (pc : Pc) : State β γ := { st with pc := Function.update st.pc t pc }

/-- The call of thread `t` ends and its sentry is destroyed. -/
def finish (t : ℕ) (i : Issue) (res : Except TException Value) (commit : Bool) (input : List β) :
    State β γ :=
  { st.goto t .idle with
    input := input
    sync := S.leave i.id commit st.sync
    reader := none
    ended := st.ended ++ [(i, res)] }

/-- What thread `t` does with a header. -/
def handle (t : ℕ) (i : Issue) (hd : Head) : State β γ :=
  if hd.rseqid = i.id then
    match recvCallOf P hd.fname hd.mtype i.call st.input with
    | (.ok res, _, rest) => st.finish S t i res true rest
    | (.error e, _, rest) => st.finish S t i (.error e) false rest
  else
    match S.updatePending hd st.sync with
    | (.ok (), g) => { st.goto t (.waiting i) with sync := g, reader := none }
    | (.error e, g) => { st with sync := g }.finish S t i (.error e) false st.input

/-- One step. -/
def step : Act → Option (State β γ)
  | .begin t c =>
    if st.pc t = .idle then
      match S.generateSeqId st.sync with
      | (.ok id, g) =>
        some { st.goto t (.generated ⟨st.issued, id, c⟩) with sync := g, issued := st.issued + 1 }
      | (.error e, g) => some { st with sync := g, refused := st.refused ++ [(c, e)] }
    else none
  | .send t =>
    match st.pc t with
    | .generated i =>
      some { st.goto t (.sent i) with
        output := st.output ++ sendCallOf P i.id i.call
        asked := st.asked ++ [i] }
    | _ => none
  | .lock t =>
    match st.pc t, st.reader with
    | .sent i, none => some { st.goto t (.top i) with reader := some t }
    | _, _ => none
  | .fetch t =>
    match st.pc t with
    | .top i =>
      match S.getPending st.sync with
      | (.error e, g) => some ({ st with sync := g }.finish S t i (.error e) false st.input)
      | (.ok (some hd), g) => some { st.goto t (.header i hd) with sync := g }
      | (.ok none, g) =>
        if st.input = [] then none
        else match P.readMessageBegin st.input with
        | (.ok (fname, mtype, rseqid), _, rest) =>
          some { st.goto t (.header i ⟨fname, mtype, rseqid⟩) with sync := g, input := rest }
        | (.error e, _, rest) => some ({ st with sync := g }.finish S t i (.error e) false rest)
    | _ => none
  | .handle t =>
    match st.pc t with
    | .header i hd => some (st.handle P S t i hd)
    | _ => none
  | .wake t =>
    match st.pc t, st.reader with
    | .waiting i, none =>
      (S.waitForWork i.id st.sync).map fun g =>
        { st.goto t (.top i) with sync := g, reader := some t }
    | _, _ => none
  | .answer i a =>
    if i ∈ st.asked then
      some { st with
        input := st.input ++ a.write P i.call.name i.id
        asked := st.asked.erase i
        given := st.given ++ [(i, a)] }
    else none

end State

/-- What a step can do. -/
inductive Moves (P : TProtocol β) (S : SyncInfo γ) (st : State β γ) : Act → State β γ → Prop where
  | begin {t : ℕ} {c : Call} {id : I32} {g : γ} : st.pc t = .idle →
    S.generateSeqId st.sync = (.ok id, g) →
    Moves P S st (.begin t c) { st.goto t (.generated ⟨st.issued, id, c⟩) with
      sync := g
      issued := st.issued + 1 }
  | refuse {t : ℕ} {c : Call} {e : TException} {g : γ} : st.pc t = .idle →
    S.generateSeqId st.sync = (.error e, g) →
    Moves P S st (.begin t c) { st with
      sync := g
      refused := st.refused ++ [(c, e)] }
  | send {t : ℕ} {i : Issue} : st.pc t = .generated i →
    Moves P S st (.send t) { st.goto t (.sent i) with
      output := st.output ++ sendCallOf P i.id i.call
      asked := st.asked ++ [i] }
  | lock {t : ℕ} {i : Issue} : st.pc t = .sent i → st.reader = none →
    Moves P S st (.lock t) { st.goto t (.top i) with reader := some t }
  | dead {t : ℕ} {i : Issue} {e : TException} {g : γ} : st.pc t = .top i →
    S.getPending st.sync = (.error e, g) →
    Moves P S st (.fetch t) ({ st with sync := g }.finish S t i (.error e) false st.input)
  | take {t : ℕ} {i : Issue} {hd : Head} {g : γ} : st.pc t = .top i →
    S.getPending st.sync = (.ok (some hd), g) →
    Moves P S st (.fetch t) { st.goto t (.header i hd) with sync := g }
  | read {t : ℕ} {i : Issue} {hd : Head} {g : γ} {n : BitVec 32} {rest : List β} :
    st.pc t = .top i → S.getPending st.sync = (.ok none, g) → st.input ≠ [] →
    P.readMessageBegin st.input = (.ok (hd.fname, hd.mtype, hd.rseqid), n, rest) →
    Moves P S st (.fetch t) { st.goto t (.header i hd) with
      sync := g
      input := rest }
  | broken {t : ℕ} {i : Issue} {e : TException} {g : γ} {n : BitVec 32} {rest : List β} :
    st.pc t = .top i → S.getPending st.sync = (.ok none, g) → st.input ≠ [] →
    P.readMessageBegin st.input = (.error e, n, rest) →
    Moves P S st (.fetch t) ({ st with sync := g }.finish S t i (.error e) false rest)
  | own {t : ℕ} {i : Issue} {hd : Head} {res : Except TException Value} {n : BitVec 32}
    {rest : List β} :
    st.pc t = .header i hd → hd.rseqid = i.id → recvCallOf P hd.fname hd.mtype i.call st.input =
      (.ok res, n, rest) →
    Moves P S st (.handle t) (st.finish S t i res true rest)
  | failed {t : ℕ} {i : Issue} {hd : Head} {e : TException} {n : BitVec 32} {rest : List β} :
    st.pc t = .header i hd → hd.rseqid = i.id → recvCallOf P hd.fname hd.mtype i.call st.input =
      (.error e, n, rest) →
    Moves P S st (.handle t) (st.finish S t i (.error e) false rest)
  | pass {t : ℕ} {i : Issue} {hd : Head} {g : γ} :
    st.pc t = .header i hd → hd.rseqid ≠ i.id → S.updatePending hd st.sync = (.ok (), g) →
    Moves P S st (.handle t) { st.goto t (.waiting i) with
      sync := g
      reader := none }
  | bad {t : ℕ} {i : Issue} {hd : Head} {e : TException} {g : γ} :
    st.pc t = .header i hd → hd.rseqid ≠ i.id → S.updatePending hd st.sync = (.error e, g) →
    Moves P S st (.handle t) ({ st with sync := g }.finish S t i (.error e) false st.input)
  | wake {t : ℕ} {i : Issue} {g : γ} : st.pc t = .waiting i → st.reader = none →
    S.waitForWork i.id st.sync = some g →
    Moves P S st (.wake t) { st.goto t (.top i) with
      sync := g
      reader := some t }
  | answer {i : Issue} {a : Answer} : i ∈ st.asked →
    Moves P S st (.answer i a) { st with
      input := st.input ++ a.write P i.call.name i.id
      asked := st.asked.erase i
      given := st.given ++ [(i, a)] }

theorem moves_of_step {st st' : State β γ} {a : Act} (hs : st.step P S a = some st') :
    Moves P S st a st' := by
  cases a with
  | begin t c =>
    simp only [State.step, Option.ite_none_right_eq_some] at hs
    obtain ⟨hidle, hs⟩ := hs
    split at hs
    · next id g hg =>
      cases hs
      exact .begin hidle hg
    · next e g hg =>
      cases hs
      exact .refuse hidle hg
  | send t =>
    simp only [State.step] at hs
    split at hs
    · next i ht =>
      cases hs
      exact .send ht
    · cases hs
  | lock t =>
    simp only [State.step] at hs
    split at hs
    · next i ht hr =>
      cases hs
      exact .lock ht hr
    · cases hs
  | fetch t =>
    simp only [State.step] at hs
    split at hs
    · next i ht =>
      split at hs
      · next e g hg =>
        cases hs
        exact .dead ht hg
      · next hd g hg =>
        cases hs
        exact .take ht hg
      · next g hg =>
        by_cases hin : st.input = []
        · rw [if_pos hin] at hs
          cases hs
        · rw [if_neg hin] at hs
          split at hs
          · next fname mtype rseqid n rest hread =>
            cases hs
            exact .read ht hg hin hread
          · next e n rest hread =>
            cases hs
            exact .broken ht hg hin hread
    · cases hs
  | handle t =>
    simp only [State.step] at hs
    split at hs
    · next i hd ht =>
      cases hs
      unfold State.handle
      split_ifs with hid
      · split
        · next res n rest hread => exact .own ht hid hread
        · next e n rest hread => exact .failed ht hid hread
      · split
        · next g hg => exact .pass ht hid hg
        · next e g hg => exact .bad ht hid hg
    · cases hs
  | wake t =>
    simp only [State.step] at hs
    split at hs
    · next i ht hr =>
      obtain ⟨g, hg, rfl⟩ := Option.map_eq_some_iff.mp hs
      exact .wake ht hr hg
    · cases hs
  | answer i a =>
    simp only [State.step, Option.ite_none_right_eq_some, Option.some.injEq] at hs
    obtain ⟨hi, rfl⟩ := hs
    exact .answer hi

/-- Nothing has happened. -/
def start : State β γ := ⟨[], [], S.new, none, fun _ => .idle, 0, [], [], [], []⟩

/-- The client's threads and the server. -/
def client (P : TProtocol β) (S : SyncInfo γ) : Lts (State β γ) Act where
  init st := st = start S
  step st a st' := st.step P S a = some st'

/-! ### Answers -/

/-- The answer is one to the call, and can be sent. -/
def Fits (P : TProtocol β) : Call → Answer → Prop
  | .remoteTime _, .time _ => True
  | .send _, .data s => P.carries s
  | _, .thrown x => P.carries x.message
  | _, _ => False

/-- The server gives answers to what it is asked. -/
def Act.Ok (P : TProtocol β) : Act → Prop
  | .answer i a => Fits P i.call a
  | _ => True

/-- What a caller makes of an answer. -/
def outcome : Answer → Except TException Value
  | .time v => .ok (.time v)
  | .data s => .ok (.data s)
  | .thrown x => .error (.application x)

/-- The type of an answer's message. -/
def mtype : Answer → TMessageType
  | .time _ => .reply
  | .data _ => .reply
  | .thrown _ => .exception

/-- An answer without its header. -/
def body (P : TProtocol β) : Answer → List β
  | .time v => remoteTimeResultWrite P ⟨v, true⟩ ++ P.writeMessageEnd
  | .data s => sendResultWrite P ⟨s, true⟩ ++ P.writeMessageEnd
  | .thrown x => P.writeException x ++ P.writeMessageEnd

variable {P}

theorem write_eq (a : Answer) (name : String) (id : I32) :
    a.write P name id = P.writeMessageBegin name (mtype a) id ++ body P a := by
  cases a <;> rfl

theorem recvBody_reply (hP : P.Lawful) (name failed : String)
    {presultRead : Result α → Read β (Result α)} {resultWrite : Result α → List β} {v ret : α}
    (hread : Reads (presultRead ⟨ret, false⟩) (resultWrite ⟨v, true⟩) (.ok ⟨v, true⟩)) :
    Reads (recvBody P presultRead name failed ret name .reply)
      (resultWrite ⟨v, true⟩ ++ P.writeMessageEnd) (.ok (.ok v)) := by
  have hrest : Reads (α := Except TException α) (do
      let result ← presultRead ⟨ret, false⟩
      P.readMessageEnd
      if result.isset = true then return .ok result.success
        else fail (.application ⟨.missingResult, failed⟩))
      (resultWrite ⟨v, true⟩ ++ P.writeMessageEnd) (.ok (.ok v)) :=
    hread.bind (hP.messageEnd.bind_nil (Reads.pure _))
  unfold recvBody
  rw [if_neg (by simp), if_neg (by simp)]
  exact (skipUnless_reads rfl).bind hrest

theorem recvBody_thrown (hP : P.Lawful) {presultRead : Result α → Read β (Result α)}
    (name failed fname : String) {x : TApplicationException} (hx : P.carries x.message) (ret : α) :
    Reads (recvBody P presultRead name failed ret fname .exception)
      (P.writeException x ++ P.writeMessageEnd) (.ok (.error (.application x))) :=
  (hP.exception x hx).bind (hP.messageEnd.bind_nil (Reads.pure _))

/-- **The rest of an answer is read** by the call that it is for. -/
theorem recvCallOf_reads (hP : P.Lawful) {c : Call} {a : Answer} (ha : Fits P c a) :
    Reads (recvCallOf P c.name (mtype a) c) (body P a) (.ok (outcome a)) := by
  cases c with
  | remoteTime ret =>
    cases a with
    | time v =>
      exact (recvBody_reply hP _ _ (remoteTimePresult_reads hP ret v)).bind_nil (Reads.pure _)
    | data s => exact ha.elim
    | thrown x => exact (recvBody_thrown hP _ _ _ ha ret).bind_nil (Reads.pure _)
  | send ret =>
    cases a with
    | time v => exact ha.elim
    | data s => exact (recvBody_reply hP _ _ (sendPresult_reads hP ret ha)).bind_nil (Reads.pure _)
    | thrown x => exact (recvBody_thrown hP _ _ _ ha ret).bind_nil (Reads.pure _)

end NetworkDemo.Rpc.Concurrent
