import NetworkDemo.Rpc.ConcurrentRuns

/-!
# Threads that share a connection to a server

The concurrent client on one end of a connection, the processor on the other: the requests
that the threads write are what the server reads, and what it writes is what they read. The
runs of the two together are runs of the client with a server that answers in order
(`Connected.client_step`), each answer being the handler's.

* `shared_calls` — the threads' calls are linearizable: they have had the outcomes of direct
  calls of the handler, each `send` with an empty string, made one after the other in the order
  in which the requests were written; and what has been written and not taken waits for the
  server, whole.
-/

namespace NetworkDemo.Rpc.Concurrent

open Foundations Foundations.Reader

variable {β σ γ : Type} (P : TProtocol β) (S : SyncInfo γ) (D : Dispatcher β σ) (h : TestProtoIf σ)

/-- Both ends of a connection. -/
structure Shared (β γ σ : Type) where
  client : State β γ
  /-- How many symbols of the client's output the server has read. -/
  taken : ℕ
  handler : σ

/-- A step of one of the threads, or of the server. -/
inductive SharedAct where
  | client (a : Act)
  | serve

namespace Shared

variable (st : Shared β γ σ)

/-- What the server has not read. -/
def requests : List β := st.client.output.drop st.taken

/-- The server writes `out`. What it answers, and to whom, goes on record. -/
def record (i : Issue) (out : List β) : State β γ :=
  { st.client with
    input := st.client.input ++ out
    asked := st.client.asked.tail
    given := st.client.given ++ ((answer h i.call.name st.handler).1.map (Prod.mk i)).toList }

/-- One step. -/
def step : SharedAct → Option (Shared β γ σ)
  | .client (.answer _ _) => none
  | .client a => (st.client.step P S a).map fun c => { st with client := c }
  | .serve =>
    match st.client.asked with
    | [] => none
    | i :: _ =>
      match Rpc.serve P D h st.handler st.requests with
      | (.ok (some out, s), _, rest) =>
        some {
          client := st.record h i out
          taken := st.client.output.length - rest.length
          handler := s }
      | _ => none

end Shared

/-- Threads and a server, connected. -/
def shared (s₀ : σ) : Lts (Shared β γ σ) SharedAct where
  init st := st = ⟨start S, 0, s₀⟩
  step st a st' := st.step P S D h a = some st'

variable {P S D h} {V : γ → SyncView} {st st' : Shared β γ σ} {s₀ : σ} {i : Issue}
  {rest : List Issue}

/-- The request of a call, as the server sees it. -/
def requestOf (i : Issue) : Request β := { (i.call.request : Request β) with seqid := i.id }

theorem requestOf_write (i : Issue) : (requestOf i).write P = sendCallOf P i.id i.call := by
  obtain ⟨k, id, _ | _⟩ := i <;> rfl

theorem requestOf_ok (hh : h.Sendable P) (i : Issue) : (requestOf i : Request β).Ok P := by
  obtain ⟨hc, hn, hf, hs⟩ := i.call.request_ok hh
  exact ⟨hc, hn, hf, hs⟩

theorem fits_of_answer (hh : h.Sendable P) {c : Call} {s : σ} {a : Answer}
    (ha : (answer h c.name s).1 = some a) : Fits P c a := by
  cases c with
  | remoteTime ret =>
    have hans : (answer h (Call.remoteTime ret).name s).1 = answerOf .time (h.remoteTime s).1 := rfl
    rw [hans] at ha
    rcases hres : (h.remoteTime s).1 with (what | _) | v <;> rw [hres] at ha <;> cases ha
    · exact hh.remoteTime_what s what hres
    · trivial
  | send ret =>
    have hans : (answer h (Call.send ret).name s).1 = answerOf .data (h.send "" s).1 := rfl
    rw [hans] at ha
    rcases hres : (h.send "" s).1 with (what | _) | v <;> rw [hres] at ha <;> cases ha
    · exact hh.send_what s what hres
    · exact hh.data s v hres

/-- The caller makes of the answer what a direct call gives, with an empty string. -/
theorem direct_of_answer {c : Call} {s : σ} {a : Answer} (ha : (answer h c.name s).1 = some a) :
    (c.fresh.direct h s).1 = outcome a := by
  cases c with
  | remoteTime ret =>
    have hans : (answer h (Call.remoteTime ret).name s).1 = answerOf .time (h.remoteTime s).1 := rfl
    have hdir : (Call.direct h s (Call.remoteTime ret).fresh).1 =
        outcomeOf .time (h.remoteTime s).1 := rfl
    rw [hans] at ha
    rw [hdir]
    rcases hres : (h.remoteTime s).1 with (what | _) | v <;> rw [hres] at ha <;> cases ha <;> rfl
  | send ret =>
    have hans : (answer h (Call.send ret).name s).1 = answerOf .data (h.send "" s).1 := rfl
    have hdir : (Call.direct h s (Call.send ret).fresh).1 = outcomeOf .data (h.send "" s).1 := rfl
    rw [hans] at ha
    rw [hdir]
    rcases hres : (h.send "" s).1 with (what | _) | v <;> rw [hres] at ha <;> cases ha <;> rfl

/-- What is known of both ends. -/
structure Connected (P : TProtocol β) (S : SyncInfo γ) (h : TestProtoIf σ) (s₀ : σ)
    (st : Shared β γ σ) : Prop where
  client : (client P S).Reach (fun _ a => a.Ok P) st.client
  taken_le : st.taken ≤ st.client.output.length
  output : st.client.output =
    ((st.client.given.map fun g => g.1) ++ st.client.asked).flatMap fun i =>
      sendCallOf P i.id i.call
  requests : st.requests = st.client.asked.flatMap fun i => sendCallOf P i.id i.call
  outcomes : st.client.given.map (fun g => outcome g.2) =
    (freshAll h s₀ (st.client.given.map fun g => g.1.call)).1
  handler : st.handler = (freshAll h s₀ (st.client.given.map fun g => g.1.call)).2

/-- The server takes the first request that waits. -/
theorem Connected.serve (hP : P.Lawful) (hD : D.Lawful P) (hh : h.Sendable P) (hstd : h.StdOnly)
    (hst : Connected P S h s₀ st) (hasked : st.client.asked = i :: rest) :
    ∃ st', st.step P S D h .serve = some st' ∧ Connected P S h s₀ st' := by
  obtain ⟨a, ha, -⟩ := Call.reads hP hh hstd i.call i.id st.handler
  have ha1 : (answer h i.call.name st.handler).1 = some a := by rw [ha]
  have hname : (requestOf i : Request β).name = i.call.name := i.call.request_name
  have hwait : st.requests = (requestOf i).write P ++ rest.flatMap fun i =>
      sendCallOf P i.id i.call := by
    rw [hst.requests, hasked, List.flatMap_cons, requestOf_write]
  have hread := serve_reads (h := h) hP hD (requestOf_ok hh i) st.handler (rest.flatMap fun i =>
    sendCallOf P i.id i.call)
  rw [← hwait, work, hname, ha, Option.map_some] at hread
  set left := rest.flatMap fun i => sendCallOf P i.id i.call with hleft
  have hdrop : st.client.output.drop (st.client.output.length - left.length) = left := by
    have hout : st.client.output = st.client.output.take st.taken ++
        ((requestOf i).write P ++ left) := by
      rw [← hwait]
      exact (List.take_append_drop st.taken st.client.output).symm
    rw [hout, ← List.append_assoc, @List.length_append _ _ left, Nat.add_sub_cancel, List.drop_left]
  have hrecord : st.record h i (a.write P i.call.name i.id) = { st.client with
      input := st.client.input ++ a.write P i.call.name i.id
      asked := st.client.asked.erase i
      given := st.client.given ++ [(i, a)] } := by
    simp [Shared.record, ha1, hasked]
  refine ⟨⟨st.record h i (a.write P i.call.name i.id), st.client.output.length - left.length,
    (i.call.fresh.direct h st.handler).2⟩,
    ?_, ?_, ?_, ?_, ?_, ?_, ?_⟩
  · simp only [Shared.step, hasked]
    rw [hread]
    rfl
  · rw [hrecord]
    refine hst.client.step (a := .answer i a) (fits_of_answer hh ha1) ?_
    show (if i ∈ st.client.asked then _ else none) = _
    rw [if_pos (by rw [hasked]; exact List.mem_cons_self)]
  · exact Nat.sub_le ..
  · rw [hrecord]
    show st.client.output =
        (((st.client.given ++ [(i, a)]).map fun g => g.1) ++ st.client.asked.erase i).flatMap _
    rw [hst.output, hasked, List.erase_cons_head, List.map_append, List.append_assoc]
    rfl
  · show st.client.output.drop (st.client.output.length - left.length) =
        (st.record h i _).asked.flatMap _
    rw [hdrop, hrecord]
    show left = (st.client.asked.erase i).flatMap _
    rw [hasked, List.erase_cons_head]
  · rw [hrecord, List.map_append, List.map_append, freshAll_append, ← hst.outcomes, ← hst.handler]
    simp only [List.map_singleton, freshAll_one, direct_of_answer ha1]
  · rw [hrecord, List.map_append, freshAll_append, ← hst.handler]
    rfl

/-- A thread's step is one of the client. -/
theorem Connected.client_step (hst : Connected P S h s₀ st) {a : Act} {c : State β γ}
    (ha : ∀ i b, a ≠ .answer i b) (hs : st.client.step P S a = some c) :
    Connected P S h s₀ { st with client := c } := by
  have hok : a.Ok P := by
    cases a with
    | answer i b => exact absurd rfl (ha i b)
    | _ => trivial
  have hreach : (Concurrent.client P S).Reach (fun _ a => a.Ok P) c := hst.client.step hok hs
  -- a thread's step leaves the server's record alone, and writes nothing but requests
  have hmoves : c.given = st.client.given ∧ ∃ new : List Issue, c.asked = st.client.asked ++ new ∧
      c.output = st.client.output ++ new.flatMap fun i => sendCallOf P i.id i.call := by
    cases moves_of_step P S hs with
    | @send t i ht => exact ⟨rfl, [i], rfl, by simp⟩
    | answer => exact absurd rfl (ha _ _)
    | _ => exact ⟨rfl, [], (List.append_nil _).symm, (List.append_nil _).symm⟩
  obtain ⟨hg, new, hasked, hout⟩ := hmoves
  refine ⟨hreach, ?_, ?_, ?_, ?_, ?_⟩
  · show st.taken ≤ c.output.length
    rw [hout, List.length_append]
    exact Nat.le_add_right_of_le hst.taken_le
  · show c.output = ((c.given.map fun g => g.1) ++ c.asked).flatMap _
    rw [hout, hst.output, hg, hasked, ← List.append_assoc, @List.flatMap_append _ _ _ new]
  · show c.output.drop st.taken = c.asked.flatMap _
    rw [hout, List.drop_append_of_le_length hst.taken_le, hasked, List.flatMap_append,
      ← hst.requests]
    rfl
  · show c.given.map _ = (freshAll h s₀ (c.given.map _)).1
    rw [hg]
    exact hst.outcomes
  · show st.handler = (freshAll h s₀ (c.given.map _)).2
    rw [hg]
    exact hst.handler

theorem Connected.step (hP : P.Lawful) (hD : D.Lawful P) (hh : h.Sendable P) (hstd : h.StdOnly)
    (hst : Connected P S h s₀ st) {a : SharedAct} (hs : st.step P S D h a = some st') :
    Connected P S h s₀ st' := by
  cases a with
  | client a =>
    cases a with
    | answer i b => cases hs
    | _ =>
      obtain ⟨c, hc, rfl⟩ := Option.map_eq_some_iff.mp hs
      exact hst.client_step (by simp) hc
  | serve =>
    rcases hasked : st.client.asked with _ | ⟨i, rest⟩
    · rw [Shared.step, hasked] at hs
      cases hs
    · obtain ⟨st'', hs', hst''⟩ := hst.serve hP hD hh hstd hasked
      rw [hs] at hs'
      cases hs'
      exact hst''

/-- **Calls of the shared client are linearizable**, the handler's values and exceptions being such
as can be sent. In every run of the threads and the server, whichever thread reads which answer: the
calls that have ended are the first of those whose requests have been written, in that order, and
they have had the outcomes of direct calls of the handler, made in that order. -/
theorem shared_calls (hP : P.Lawful) (hS : S.Lawful V) (hD : D.Lawful P) (hh : h.Sendable P)
    (hstd : h.StdOnly) (hr : (shared P S D h s₀).Reachable st) :
    (st.client.ended.map fun e => e.2) =
    (freshAll h s₀ (st.client.ended.map fun e => e.1.call)).1 ∧
      (st.client.ended.map fun e => e.1) <+: (st.client.given.map fun g => g.1) ++ st.client.asked ∧
      st.client.output = ((st.client.given.map fun g => g.1) ++ st.client.asked).flatMap
        (fun i => sendCallOf P i.id i.call) ∧
      (st.client.asked ≠ [] → ∃ st', st.step P S D h .serve = some st') := by
  have hst : Connected P S h s₀ st := by
    refine hr.invariant (fun s hs => ?_) fun s a s' _ hs _ hstep => hs.step hP hD hh hstd hstep
    rw [hs]
    exact ⟨.init rfl, le_rfl, rfl, rfl, rfl, rfl⟩
  obtain ⟨hinv, -⟩ := inv_of_reach hP hS (fun c => c.name_carried hh) hst.client
  have hended := hinv.wire.ended
  have hle := hinv.wire.ended_le
  set n := st.client.ended.length with hn
  have hcalls : (st.client.ended.map fun e => e.1.call) =
      (st.client.given.map fun g => g.1.call).take n := by
    rw [hended, List.map_map, ← List.map_take]
    rfl
  refine ⟨?_, ?_, hst.output, fun hasked => ?_⟩
  · rw [hcalls, freshAll_take h s₀ _ (by rw [List.length_map]; exact hle), ← hst.outcomes, hended,
      List.map_map, ← List.map_take]
    rfl
  · rw [hended, List.map_map]
    refine List.IsPrefix.trans ?_ (List.prefix_append _ _)
    exact (List.take_prefix n st.client.given).map _
  · obtain ⟨i, rest, hi⟩ := List.exists_cons_of_ne_nil hasked
    obtain ⟨st', hs, -⟩ := hst.serve hP hD hh hstd hi
    exact ⟨st', hs⟩

/-- Two threads call; the first to write is answered first, and the other reads the header of its
answer. -/
def crossedCalls : List SharedAct :=
  [.client (.begin 0 (.remoteTime 0)), .client (.begin 1 (.send "")), .client (.send 1),
    .client (.send 0), .serve,
    .client (.lock 0), .client (.fetch 0), .serve, .client (.handle 0), .client (.lock 1),
      .client (.fetch 1), .client (.handle 1)]

/-- The call that ended has thrown what the handler threw. -/
theorem shared_calls_crossed : ∃ st : Shared Byte SyncState ℕ, st.client.ended.length = 1 ∧
    (st.client.ended.map fun e => e.2) =
    (freshAll counting 0 (st.client.ended.map fun e => e.1.call)).1 ∧
      (st.client.ended.map fun e => e.1) <+: (st.client.given.map fun g => g.1) ++ st.client.asked ∧
      st.client.output = ((st.client.given.map fun g => g.1) ++ st.client.asked).flatMap
        (fun i => sendCallOf binary i.id i.call) ∧
      (st.client.asked ≠ [] →
        ∃ st', st.step binary syncInfo (dispatcher binary) counting .serve = some st') := by
  have hrun : (exec (Shared.step binary syncInfo (dispatcher binary) counting)
      ⟨start syncInfo, 0, 0⟩ crossedCalls).map (fun st => st.client.ended.length) = some 1 := by
    decide +kernel
  obtain ⟨st, hst, hlen⟩ := Option.map_eq_some_iff.mp hrun
  exact ⟨st, hlen, shared_calls binary_lawful syncInfo_lawful (dispatcher_lawful binary_lawful)
    counting_sendable counting_stdOnly
    (Lts.Reach.exec (fun _ _ _ h => h) (.init rfl) (fun _ _ _ => trivial) hst)⟩

end NetworkDemo.Rpc.Concurrent
