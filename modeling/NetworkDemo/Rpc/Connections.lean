import NetworkDemo.Rpc.Client

/-!
# Clients that come and go

A `TestProtoRPCClient` opens its connection when it is constructed, and tries a thousand times.
After that every call opens the connection, if it is not open, and closes it when the answer
is there; what is thrown is thrown again as a text, and then the connection stays open for the
next call. A `TestProtoRPCServer` has a thread for each connection, and one handler for all of
them.

There may be any number of clients, each used by one thread; the threads of the clients and of the
server go on in any order. A thread of the server reads a request, calls the handler and writes the
answer, one after the other; no lock is taken, so that others do theirs between. The handler's
methods are single steps: what a handler shares between them it has to guard itself.
`transport->open()` comes to what the library's does: nothing or an exception, and nothing at all
when the transport is open.

* `attempts_iff` — what the constructor does of any run of successes and failures.
* `server_life_iff` — when the server's destructor follows a null pointer.
* `ClientOk` — a client that is not in a call has an empty connection, or none: a connection
  that is used again has nothing of an earlier call on it.
* `clients_linearizable` — the calls of all clients have had the outcomes of direct calls of the
  handler, in the order in which the threads of the server have called it, each while the call was
  under way.
-/

namespace NetworkDemo.Rpc

open Foundations Foundations.Reader

variable {β σ : Type}

/-! ### The client -/

/-- `retry_limit`. -/
def retryLimit : ℕ := 1000

/-- What the constructor throws. -/
def connectionRefused (host : String) (port : BitVec 32) (what : String) : String :=
  "Connection to (" ++ host ++ ":" ++ toString port.toNat ++ ") refused. Retry " ++
    toString retryLimit ++ " times. " ++ what

/-- What a call throws instead of a `TException` that says `what`. -/
def callError : Call → String → String
  | .remoteTime _, what => "[Example-ThriftRPC] remoteTime() Error: " ++ what
  | .send _, what => "[Example-ThriftRPC] send(String&) Error: " ++ what

/-- An open connection: what the server has not read, and what the client has not. -/
structure Connection (β : Type) where
  requests : List β
  answers : List β

/-- Where the thread is that uses a client. -/
inductive ClientPc where
  /-- In the constructor, having failed `retryTimes` times. -/
  | connecting (retryTimes : ℕ)
  /-- The constructor has thrown. -/
  | refused (message : String)
  | idle
  /-- In a call, its request having been written. -/
  | waiting (c : Call)

/-- A `TestProtoRPCClient`. -/
structure RPCClient (β : Type) where
  pc : ClientPc
  transport : Option (Connection β)
  /-- The calls that have got an answer, with what they have returned or thrown. -/
  returned : List (Call × Except String Value)
  /-- The calls whose connection could not be opened, with what they have thrown. -/
  unopened : List (Call × String)

namespace RPCClient

variable (client : RPCClient β)

/-- The constructor tries to open the transport. -/
def attempt (host : String) (port : BitVec 32) (opened : Except String Unit) :
    Option (RPCClient β) :=
  match client.pc with
  | .connecting retryTimes =>
    match opened with
    | .ok () => some { client with pc := .idle, transport := some ⟨[], []⟩ }
    | .error what =>
      if retryLimit = retryTimes + 1 then some { client with
        pc := .refused (connectionRefused host port what) }
      else some { client with pc := .connecting (retryTimes + 1) }
  | _ => none

/-- A call begins: `transportOpen()`, and the request. -/
def call (P : TProtocol β) (c : Call) (opened : Except String Unit) : Option (RPCClient β) :=
  match client.pc with
  | .idle =>
    match client.transport, opened with
    | some conn, _ =>
      some { client with
        pc := .waiting c, transport := some { conn with requests := conn.requests ++ c.write P } }
    | none, .ok () => some { client with pc := .waiting c, transport := some ⟨c.write P, []⟩ }
    | none, .error what =>
      some { client with unopened := client.unopened ++ [(c, callError c what)] }
  | _ => none

/-- What a call makes of what the generated client returns or throws. -/
def report (what : TException → String) (c : Call) : Except TException Value → Except String Value
  | .ok v => .ok v
  | .error x => .error (callError c (what x))

/-- A call ends; `transportClose()` is not reached when something is thrown. -/
def finish (P : TProtocol β) (what : TException → String) : Option (RPCClient β) :=
  match client.pc, client.transport with
  | .waiting c, some conn =>
    if conn.answers = [] then none
    else
      let (res, _, rest) := c.recv P conn.answers
      some { client with
        pc := .idle
        transport := match res with
          | .ok _ => none
          | .error _ => some { conn with answers := rest }
        returned := client.returned ++ [(c, report what c res)] }
  | _, _ => none

end RPCClient

/-- A client whose constructor has been called. -/
def newClient : RPCClient β := ⟨.connecting 0, none, [], []⟩

/-- It has failed to connect as often as `fails` is long. -/
theorem attempts_fail {host : String} {port : BitVec 32} (fails : List String)
    (hlt : fails.length < retryLimit) :
    exec (fun client opened => RPCClient.attempt client host port opened) newClient
      (fails.map .error) =
      some (⟨.connecting fails.length, none, [], []⟩ : RPCClient β) := by
  induction fails using List.reverseRecOn with
  | nil => rfl
  | append_singleton fails what ih =>
    rw [List.length_append, List.length_singleton] at hlt ⊢
    rw [List.map_append, exec_append, ih (by omega), Option.bind_some]
    have hne : retryLimit ≠ fails.length + 1 := by omega
    simp only [List.map_cons, List.map_nil, exec, RPCClient.attempt, if_neg hne]
    rfl

theorem attempts_nil {host : String} {port : BitVec 32} {client : RPCClient β}
    (h : ∀ n, client.pc ≠ .connecting n) {outs : List (Except String Unit)} {client' : RPCClient β}
    (hs : exec (fun client opened => RPCClient.attempt client host port opened) client outs =
      some client') :
    outs = [] ∧ client' = client := by
  cases outs with
  | nil => exact ⟨rfl, (Option.some.inj hs).symm⟩
  | cons o outs =>
    obtain ⟨c, hc, -⟩ := Option.bind_eq_some_iff.mp hs
    have hc : client.attempt host port o = some c := hc
    unfold RPCClient.attempt at hc
    cases hpc : client.pc <;> rw [hpc] at hc <;> first | exact absurd hpc (h _) | cases hc

/-- **The constructor**: it goes on until it has connected, or has failed a thousand times; then it
throws, with what the last failure says. -/
theorem attempts_iff {host : String} {port : BitVec 32} {outs : List (Except String Unit)}
    {client : RPCClient β} :
    exec (fun client opened => RPCClient.attempt client host port opened) newClient outs =
      some client ↔
      ∃ fails : List String, outs = fails.map .error ∧ fails.length < retryLimit ∧
            client = ⟨.connecting fails.length, none, [], []⟩ ∨
          outs = fails.map .error ++ [.ok ()] ∧ fails.length < retryLimit ∧
            client = ⟨.idle, some ⟨[], []⟩, [], []⟩ ∨
          ∃ what, outs = fails.map .error ++ [.error what] ∧ fails.length + 1 = retryLimit ∧
            client = ⟨.refused (connectionRefused host port what), none, [], []⟩ := by
  constructor
  · intro hs
    induction outs using List.reverseRecOn generalizing client with
    | nil => exact ⟨[], .inl ⟨rfl, by decide, (Option.some.inj hs).symm⟩⟩
    | append_singleton outs o ih =>
      rw [exec_append] at hs
      obtain ⟨c, hc, ho⟩ := Option.bind_eq_some_iff.mp hs
      obtain ⟨fails, ⟨rfl, hlt, rfl⟩ | ⟨-, -, rfl⟩ | ⟨what, -, -, rfl⟩⟩ := ih hc
      · -- the constructor is still at it
        obtain ⟨c', hc', rfl⟩ : ∃ c', RPCClient.attempt
            ⟨.connecting fails.length, none, [], []⟩ host port o = some c' ∧
            c' = client := by
          obtain ⟨c', hc', hnil⟩ := Option.bind_eq_some_iff.mp ho
          exact ⟨c', hc', Option.some.inj hnil⟩
        cases o with
        | ok => exact ⟨fails, .inr (.inl ⟨rfl, hlt, (Option.some.inj hc').symm⟩)⟩
        | error what =>
          simp only [RPCClient.attempt] at hc'
          split_ifs at hc' with hlim
          · exact ⟨fails, .inr (.inr ⟨what, rfl, hlim.symm, (Option.some.inj hc').symm⟩)⟩
          · refine ⟨fails ++ [what], .inl ⟨by simp, ?_, ?_⟩⟩
            · rw [List.length_append, List.length_singleton]
              omega
            · rw [List.length_append, List.length_singleton]
              exact (Option.some.inj hc').symm
      · exact absurd (attempts_nil (by simp) ho).1 (by simp)
      · exact absurd (attempts_nil (by simp) ho).1 (by simp)
  · rintro ⟨fails, ⟨rfl, hlt, rfl⟩ | ⟨rfl, hlt, rfl⟩ | ⟨what, rfl, hlim, rfl⟩⟩
    · exact attempts_fail fails hlt
    · rw [exec_append, attempts_fail fails hlt]
      rfl
    · rw [exec_append, attempts_fail fails (by omega), Option.bind_some]
      simp only [exec, RPCClient.attempt, if_pos hlim.symm]
      rfl

/-! ### The server -/

/-- What an `IRPCServer` has: whether its pointers are not null. -/
structure RPCServer where
  server : Bool
  thread : Bool
  deriving DecidableEq

/-- A call of a method, the destructor's being one of `stop`. -/
inductive RPCServerCall where
  | serve
  | stop
  | leave
  | asyncRun
  deriving DecidableEq

/-- What it does to the pointers; nothing is left of a null pointer that is followed. -/
def RPCServer.does (s : RPCServer) : RPCServerCall → Option RPCServer
  | .serve => if s.server = true then some s else none
  | .stop => if s.server = true then some { s with server := !s.thread } else none
  | .leave => some { s with server := false }
  -- the thread follows the pointer that it is given
  | .asyncRun => if s.server = true then some { s with thread := true } else none

/-- A `TestProtoRPCServer` just constructed. Its constructor sets `server`, which that of the
`IRPCServer` leaves null. -/
def newTestProtoRPCServer : RPCServer := ⟨true, false⟩

/-- What a user of the class has to keep to. -/
def KeepsServer (calls : List RPCServerCall) : Prop :=
  .leave ∉ calls ∧ ∀ before after, calls = before ++ .stop :: after → .asyncRun ∉ before

theorem keepsServer_snoc {calls : List RPCServerCall} {c : RPCServerCall} :
    KeepsServer (calls ++ [c]) ↔ KeepsServer calls ∧ c ≠ .leave ∧
    (c = .stop → .asyncRun ∉ calls) := by
  constructor
  · rintro ⟨hleave, hstop⟩
    refine ⟨⟨fun h => hleave (List.mem_append_left _ h), fun before after h => ?_⟩, ?_, ?_⟩
    · exact hstop before (after ++ [c]) (by rw [h, List.append_assoc]; rfl)
    · rintro rfl
      exact hleave (by simp)
    · rintro rfl
      exact hstop calls [] rfl
  · rintro ⟨⟨hleave, hstop⟩, hc, hlast⟩
    refine ⟨fun h => ?_, fun before after h => ?_⟩
    · rcases List.mem_append.mp h with h | h
      · exact hleave h
      · exact hc (List.mem_singleton.mp h).symm
    · rcases List.eq_nil_or_concat after with rfl | ⟨after, d, rfl⟩
      · obtain ⟨rfl, hd⟩ := List.append_inj' h rfl
        exact hlast (List.cons.inj hd).1
      · rw [List.concat_eq_append, ← List.cons_append, ← List.append_assoc] at h
        exact hstop before after (List.append_inj' h rfl).1

theorem server_kept {calls : List RPCServerCall} (h : KeepsServer calls) :
    exec RPCServer.does newTestProtoRPCServer calls = some ⟨true, decide (.asyncRun ∈ calls)⟩ := by
  induction calls using List.reverseRecOn with
  | nil => rfl
  | append_singleton calls c ih =>
    obtain ⟨hcalls, hleave, hstop⟩ := keepsServer_snoc.mp h
    rw [exec_append, ih hcalls, Option.bind_some]
    cases c with
    | serve => simp [exec, RPCServer.does]
    | stop => simp [exec, RPCServer.does, hstop rfl]
    | leave => exact absurd rfl hleave
    | asyncRun => simp [exec, RPCServer.does]

/-- Once the pointer is null it stays so. -/
theorem server_gone {calls : List RPCServerCall} {s s' : RPCServer} (h : s.server = false)
    (hs : exec RPCServer.does s calls = some s') : s'.server = false := by
  induction calls generalizing s with
  | nil =>
    obtain rfl := Option.some.inj hs
    exact h
  | cons c calls ih =>
    obtain ⟨s₁, h₁, h₂⟩ := Option.bind_eq_some_iff.mp hs
    refine ih ?_ h₂
    cases c with
    | leave =>
      obtain rfl := Option.some.inj h₁
      rfl
    | _ =>
      rw [RPCServer.does, h] at h₁
      cases h₁

/-- **The life of a `TestProtoRPCServer`**: after any calls the destructor finds the server if and
only if nobody has left it, and nobody has stopped it after it has been run asynchronously; what
ends the thread takes the server away from the destructor. -/
theorem server_life_iff (calls : List RPCServerCall) :
    (exec RPCServer.does newTestProtoRPCServer (calls ++ [.stop])).isSome = true ↔
      KeepsServer calls := by
  constructor
  · intro h
    obtain ⟨s', hs'⟩ := Option.isSome_iff_exists.mp h
    rw [exec_append] at hs'
    obtain ⟨s, hs, hstop⟩ := Option.bind_eq_some_iff.mp hs'
    have hserver : s.server = true := by
      by_contra hf
      simp only [exec, RPCServer.does, hf] at hstop
      cases hstop
    clear h hs' hstop
    induction calls using List.reverseRecOn generalizing s with
    | nil => exact ⟨by simp, by simp⟩
    | append_singleton calls c ih =>
      rw [exec_append] at hs
      obtain ⟨s₁, h₁, h₂⟩ := Option.bind_eq_some_iff.mp hs
      have hserver₁ : s₁.server = true := by
        by_contra hf
        rw [server_gone (by simpa using hf) h₂] at hserver
        cases hserver
      have hcalls := ih s₁ h₁ hserver₁
      obtain rfl := Option.some.inj (h₁.symm.trans (server_kept hcalls))
      refine keepsServer_snoc.mpr ⟨hcalls, ?_, ?_⟩
      · rintro rfl
        obtain rfl := Option.some.inj h₂
        cases hserver
      · rintro rfl hrun
        obtain rfl : _ = s := Option.some.inj h₂
        simp [hrun] at hserver
  · intro h
    rw [exec_append, server_kept h]
    rfl

/-! ### Clients and a server -/

/-- Where the thread of the server is that has a client's connection. -/
inductive ServerPc (β σ : Type) where
  /-- It waits for a request, or reads one. -/
  | reading
  /-- It has read one, and there is work to do. -/
  | calling (w : Work β σ)
  /-- It has called the handler, and this is to be written. -/
  | writing (out : List β)

/-- A call of the handler: for whom. -/
structure Served where
  client : ℕ
  call : Call
  deriving DecidableEq

/-- All of it. -/
structure Network (β σ : Type) where
  clients : ℕ → RPCClient β
  /-- The server's threads, one for each connection. -/
  threads : ℕ → ServerPc β σ
  handler : σ
  /-- The calls of the handler so far. -/
  served : List Served

/-- What happens next. -/
inductive NetworkAct where
  /-- The constructor of client `t` tries to connect. -/
  | attempt (t : ℕ) (opened : Except String Unit)
  | call (t : ℕ) (c : Call) (opened : Except String Unit)
  /-- The server's thread for client `t` reads a request. -/
  | read (t : ℕ)
  /-- It calls the handler. -/
  | run (t : ℕ)
  /-- It writes the answer. -/
  | write (t : ℕ)
  | finish (t : ℕ)

/-- The address of the server, and what the library's exceptions say. -/
structure Setting where
  host : String
  port : BitVec 32
  what : TException → String

/-- The call that a client is in. -/
def RPCClient.inCall? (client : RPCClient β) : Option Call :=
  match client.pc with
  | .waiting c => some c
  | _ => none

namespace Network

variable (st : Network β σ)

/-- Client `t` becomes `client`. A connection that is closed takes its thread with it, and the next
one will have another. -/
def set (t : ℕ) (client : RPCClient β) : Network β σ :=
  { st with
    clients := Function.update st.clients t client
    threads :=
      if client.transport.isNone = true then Function.update st.threads t .reading
      else st.threads }

/-- The server's thread for client `t` reads a request; one that is not dispatched ends the
connection. -/
def read (P : TProtocol β) (D : Dispatcher β σ) (h : TestProtoIf σ) (t : ℕ) :
    Option (Network β σ) :=
  match st.threads t, (st.clients t).transport with
  | .reading, some conn =>
    if conn.requests = [] then none
    else match D (dispatchCall P h) conn.requests with
    | (.ok (some w), _, rest) =>
      some { st with
        clients := Function.update st.clients t
          { st.clients t with transport := some { conn with requests := rest } }
        threads := Function.update st.threads t (.calling w) }
    | _ => none
  | _, _ => none

/-- It calls the handler; what leaves the processor ends the connection. -/
def run (t : ℕ) : Option (Network β σ) :=
  match st.threads t with
  | .calling w =>
    match w st.handler with
    | (some out, s) =>
      some { st with
        threads := Function.update st.threads t (.writing out)
        handler := s
        served := st.served ++ ((st.clients t).inCall?.map (Served.mk t)).toList }
    | (none, _) => none
  | _ => none

/-- It writes the answer. -/
def write (t : ℕ) : Option (Network β σ) :=
  match st.threads t, (st.clients t).transport with
  | .writing out, some conn =>
    some { st with
      clients := Function.update st.clients t
        { st.clients t with transport := some { conn with answers := conn.answers ++ out } }
      threads := Function.update st.threads t .reading }
  | _, _ => none

/-- One step. -/
def step (P : TProtocol β) (D : Dispatcher β σ) (h : TestProtoIf σ) (E : Setting) :
    NetworkAct → Option (Network β σ)
  | .attempt t opened => ((st.clients t).attempt E.host E.port opened).map (st.set t)
  | .call t c opened => ((st.clients t).call P c opened).map (st.set t)
  | .read t => st.read P D h t
  | .run t => st.run t
  | .write t => st.write t
  | .finish t => ((st.clients t).finish P E.what).map (st.set t)

/-- The calls of the handler, each with what it has had if they were direct calls, one after the
other. -/
def results (h : TestProtoIf σ) (s₀ : σ) : List (Served × Except TException Value) :=
  st.served.zip (freshAll h s₀ (st.served.map (·.call))).1

/-- Those for client `t`. -/
def servedFor (h : TestProtoIf σ) (s₀ : σ) (t : ℕ) : List (Call × Except TException Value) :=
  ((st.results h s₀).filter (·.1.client = t)).map fun e => (e.1.call, e.2)

end Network

/-- Any number of clients, none of which has connected yet. -/
def network (P : TProtocol β) (D : Dispatcher β σ) (h : TestProtoIf σ) (E : Setting) (s₀ : σ) :
    Lts (Network β σ) NetworkAct where
  init st := st = ⟨fun _ => newClient, fun _ => .reading, s₀, []⟩
  step st a st' := st.step P D h E a = some st'

/-! ### The invariant -/

variable {P : TProtocol β} {D : Dispatcher β σ} {h : TestProtoIf σ} {E : Setting} {s₀ : σ}
  {st st' : Network β σ} {t : ℕ} {client client' : RPCClient β} {thread : ServerPc β σ}

/-- What its caller is to get of a call. -/
def reported (what : TException → String) (e : Call × Except TException Value) :
    Call × Except String Value :=
  (e.1, RPCClient.report what e.1 e.2)

/-- A client, and the server's thread for it, when the handler has done `served` for it. -/
inductive ClientOk (P : TProtocol β) (h : TestProtoIf σ) (E : Setting) (client : RPCClient β)
    (thread : ServerPc β σ) (served : List (Call × Except TException Value)) : Prop
  | connecting (retryTimes : ℕ) (hpc : client.pc = .connecting retryTimes)
    (hthread : thread = .reading) (hlt : retryTimes < retryLimit)
    (hconn : client.transport = none) (hret : client.returned = []) (hserved : served = [])
  | refused (what : String) (hpc : client.pc = .refused (connectionRefused E.host E.port what))
    (hthread : thread = .reading)
    (hconn : client.transport = none) (hret : client.returned = []) (hserved : served = [])
  | idle (hpc : client.pc = .idle) (hthread : thread = .reading)
    (hconn : client.transport = none ∨ client.transport = some ⟨[], []⟩)
    (hret : client.returned = served.map (reported E.what))
  | asking (c : Call) (hpc : client.pc = .waiting c) (hthread : thread = .reading)
    (hconn : client.transport = some ⟨c.write P, []⟩)
    (hret : client.returned = served.map (reported E.what))
  | asked (c : Call) (hpc : client.pc = .waiting c)
    (hthread : thread = .calling (work P h c.name 0))
    (hconn : client.transport = some ⟨[], []⟩)
    (hret : client.returned = served.map (reported E.what))
  | answering (c : Call) (res : Except TException Value)
    (before : List (Call × Except TException Value)) (answer : List β)
    (hpc : client.pc = .waiting c) (hthread : thread = .writing answer)
    (hconn : client.transport = some ⟨[], []⟩)
    (hne : answer ≠ []) (hread : Reads (c.recv P) answer res)
    (hserved : served = before ++ [(c, res)])
    (hret : client.returned = before.map (reported E.what))
  | answered (c : Call) (res : Except TException Value)
    (before : List (Call × Except TException Value)) (answer : List β)
    (hpc : client.pc = .waiting c) (hthread : thread = .reading)
    (hconn : client.transport = some ⟨[], answer⟩)
    (hne : answer ≠ []) (hread : Reads (c.recv P) answer res)
    (hserved : served = before ++ [(c, res)])
    (hret : client.returned = before.map (reported E.what))

/-- The clients and their threads, and the handler. -/
structure NetworkOk (P : TProtocol β) (h : TestProtoIf σ) (E : Setting) (s₀ : σ)
    (st : Network β σ) : Prop where
  clients : ∀ t, ClientOk P h E (st.clients t) (st.threads t) (st.servedFor h s₀ t)
  handler : st.handler = (freshAll h s₀ (st.served.map (·.call))).2

variable {served : List (Call × Except TException Value)}

theorem ClientOk.attempt (hc : ClientOk P h E client thread served) {opened : Except String Unit}
    (hs : client.attempt E.host E.port opened = some client') :
    thread = .reading ∧ ClientOk P h E client' .reading served := by
  unfold RPCClient.attempt at hs
  cases hc with
  | connecting n hpc hthread hlt hconn hret hserved =>
    rw [hpc] at hs
    refine ⟨hthread, ?_⟩
    cases opened with
    | ok =>
      obtain rfl := Option.some.inj hs
      exact .idle rfl rfl (.inr rfl) (by rw [hserved]; exact hret)
    | error what =>
      dsimp only at hs
      split_ifs at hs with hlim
      · obtain rfl := Option.some.inj hs
        exact .refused what rfl rfl hconn hret hserved
      · obtain rfl := Option.some.inj hs
        exact .connecting (n + 1) rfl rfl (by omega) hconn hret hserved
  | refused what hpc => rw [hpc] at hs; cases hs
  | idle hpc => rw [hpc] at hs; cases hs
  | asking c hpc => rw [hpc] at hs; cases hs
  | asked c hpc => rw [hpc] at hs; cases hs
  | answering c res before answer hpc => rw [hpc] at hs; cases hs
  | answered c res before answer hpc => rw [hpc] at hs; cases hs

theorem ClientOk.call (hc : ClientOk P h E client thread served) {c : Call}
    {opened : Except String Unit} (hs : client.call P c opened = some client') :
    thread = .reading ∧ ClientOk P h E client' .reading served := by
  unfold RPCClient.call at hs
  cases hc with
  | idle hpc hthread hconn hret =>
    rw [hpc] at hs
    refine ⟨hthread, ?_⟩
    rcases hconn with hconn | hconn
    · rw [hconn] at hs
      cases opened with
      | ok =>
        obtain rfl := Option.some.inj hs
        exact .asking c rfl rfl rfl hret
      | error what =>
        obtain rfl := Option.some.inj hs
        exact .idle rfl rfl (.inl rfl) hret
    · -- nothing of an earlier call is left on the connection
      rw [hconn] at hs
      obtain rfl := Option.some.inj hs
      exact .asking c rfl rfl rfl hret
  | connecting n hpc => rw [hpc] at hs; cases hs
  | refused what hpc => rw [hpc] at hs; cases hs
  | asking c hpc => rw [hpc] at hs; cases hs
  | asked c hpc => rw [hpc] at hs; cases hs
  | answering c res before answer hpc => rw [hpc] at hs; cases hs
  | answered c res before answer hpc => rw [hpc] at hs; cases hs

theorem ClientOk.finish (hc : ClientOk P h E client thread served)
    (hs : client.finish P E.what = some client') :
    thread = .reading ∧ ClientOk P h E client' .reading served := by
  unfold RPCClient.finish at hs
  cases hc with
  | answered c res before answer hpc hthread hconn hne hread hserved hret =>
    have hrecv := hread []
    rw [List.append_nil] at hrecv
    rw [hpc, hconn] at hs
    dsimp only at hs
    rw [if_neg hne, hrecv] at hs
    obtain rfl := Option.some.inj hs
    have hret' : client.returned ++ [(c, RPCClient.report E.what c res)] =
        served.map (reported E.what) := by
      rw [hserved, List.map_append, hret]
      rfl
    refine ⟨hthread, ?_⟩
    cases res with
    | ok v => exact .idle rfl rfl (.inl rfl) hret'
    | error x => exact .idle rfl rfl (.inr rfl) hret'
  | asking c hpc hthread hconn => rw [hpc, hconn] at hs; cases hs
  | asked c hpc hthread hconn => rw [hpc, hconn] at hs; cases hs
  | answering c res before answer hpc hthread hconn => rw [hpc, hconn] at hs; cases hs
  | connecting n hpc => rw [hpc] at hs; cases hs
  | refused what hpc => rw [hpc] at hs; cases hs
  | idle hpc => rw [hpc] at hs; cases hs

/-- Client `t` and its thread go on, the handler not being called. -/
theorem NetworkOk.goto (hst : NetworkOk P h E s₀ st)
    (hc : ClientOk P h E client thread (st.servedFor h s₀ t))
    (hclients : st'.clients = Function.update st.clients t client)
    (hthreads : st'.threads = Function.update st.threads t thread)
    (hserved : st'.served = st.served) (hh : st'.handler = st.handler) :
    NetworkOk P h E s₀ st' where
  clients u := by
    have hfor : st'.servedFor h s₀ u = st.servedFor h s₀ u := by
      rw [Network.servedFor, Network.results, hserved]
      rfl
    rw [hfor, hclients, hthreads]
    by_cases hut : u = t
    · rw [hut, Function.update_self, Function.update_self]
      exact hc
    · rw [Function.update_of_ne hut, Function.update_of_ne hut]
      exact hst.clients u
  handler := by rw [hh, hserved, hst.handler]

/-- A step of one client. -/
theorem NetworkOk.set (hst : NetworkOk P h E s₀ st) (hthread : st.threads t = .reading)
    (hc : ClientOk P h E client .reading (st.servedFor h s₀ t)) :
    NetworkOk P h E s₀ (st.set t client) := by
  have hsame : Function.update st.threads t .reading = st.threads := by
    rw [← hthread, Function.update_eq_self]
  refine hst.goto hc rfl ?_ rfl rfl
  show (if client.transport.isNone = true then _ else _) = _
  rw [hsame, ite_self]

/-- The thread for a client that is asking reads the request. -/
theorem NetworkOk.read (hst : NetworkOk P h E s₀ st) (hP : P.Lawful) (hD : D.Lawful P)
    (hh : h.Sendable P) {c : Call} (hpc : (st.clients t).pc = .waiting c)
    (hthread : st.threads t = .reading)
    (hconn : (st.clients t).transport = some ⟨c.write P, []⟩)
    (hret : (st.clients t).returned = (st.servedFor h s₀ t).map (reported E.what)) :
    ∃ st', st.read P D h t = some st' ∧ NetworkOk P h E s₀ st' := by
  have hok : (c.request : Request β).Ok P := c.request_ok hh
  have hseq : (c.request : Request β).seqid = 0 := by cases c <;> rfl
  have hread := process_dispatches (h := h) hP hD hok []
  rw [List.append_nil, ← Call.write_eq, Call.request_name, hseq] at hread
  have hne : c.write P ≠ [] := by
    rw [Call.write_eq]
    exact Request.write_ne_nil hP hok
  set client : RPCClient β := { st.clients t with transport := some ⟨[], []⟩ } with hclient
  have hc : ClientOk P h E client (.calling (work P h c.name 0)) (st.servedFor h s₀ t) :=
    .asked c hpc rfl rfl hret
  refine ⟨{ st with
    clients := Function.update st.clients t client
    threads := Function.update st.threads t (.calling (work P h c.name 0)) }, ?_,
    hst.goto hc rfl rfl rfl rfl⟩
  rw [Network.read, hthread, hconn]
  dsimp only
  rw [if_neg hne, hread]

/-- What the handler has done for the clients, when it has been called once more. -/
theorem servedFor_append (served : List Served) (e : Served) (clients : ℕ → RPCClient β)
    (threads : ℕ → ServerPc β σ) (s : σ) (u : ℕ) :
    Network.servedFor ⟨clients, threads, s, served ++ [e]⟩ h s₀ u =
      Network.servedFor ⟨clients, threads, s, served⟩ h s₀ u ++
        if e.client = u then
          [(e.call, (e.call.fresh.direct h (freshAll h s₀ (served.map (·.call))).2).1)]
        else [] := by
  have hlen : served.length = (freshAll h s₀ (served.map (·.call))).1.length := by
    rw [length_freshAll, List.length_map]
  unfold Network.servedFor Network.results
  dsimp only
  rw [List.map_append, List.map_singleton, freshAll_append, List.zip_append hlen, freshAll_one,
    List.filter_append, List.map_append]
  by_cases heu : e.client = u <;> simp [heu]

/-- The thread for a client that has asked calls the handler. -/
theorem NetworkOk.run (hst : NetworkOk P h E s₀ st) (hP : P.Lawful) (hh : h.Sendable P)
    (hstd : h.StdOnly) {c : Call} (hpc : (st.clients t).pc = .waiting c)
    (hthread : st.threads t = .calling (work P h c.name 0))
    (hconn : (st.clients t).transport = some ⟨[], []⟩)
    (hret : (st.clients t).returned = (st.servedFor h s₀ t).map (reported E.what)) :
    ∃ st', st.run t = some st' ∧ NetworkOk P h E s₀ st' := by
  obtain ⟨a, ha, hread⟩ := Call.reads hP hh hstd c 0 st.handler
  have hin : (st.clients t).inCall? = some c := by rw [RPCClient.inCall?, hpc]
  have hwork : work P h c.name 0 st.handler =
      (some (a.write P c.name 0), (c.fresh.direct h st.handler).2) := by
    rw [work, ha]
    rfl
  refine ⟨⟨st.clients, Function.update st.threads t (.writing (a.write P c.name 0)),
    (c.fresh.direct h st.handler).2, st.served ++ [⟨t, c⟩]⟩, ?_, fun u => ?_, ?_⟩
  · rw [Network.run, hthread]
    dsimp only
    rw [hwork, hin]
    rfl
  · rw [servedFor_append, ← hst.handler]
    show ClientOk P h E (st.clients u)
        (Function.update st.threads t (.writing (a.write P c.name 0)) u)
        (st.servedFor h s₀ u ++ _)
    by_cases hut : u = t
    · subst hut
      rw [Function.update_self, if_pos rfl]
      exact .answering c _ (st.servedFor h s₀ u) (a.write P c.name 0) hpc rfl hconn
        (Answer.write_ne_nil hP (c.name_carried hh) 0 a) hread rfl hret
    · rw [Function.update_of_ne hut, if_neg (Ne.symm hut), List.append_nil]
      exact hst.clients u
  · show (c.fresh.direct h st.handler).2 = (freshAll h s₀ ((st.served ++ [Served.mk t c]).map
        (Served.call ·))).2
    rw [List.map_append, freshAll_append, ← hst.handler]
    rfl

/-- The thread for a client writes its answer. -/
theorem NetworkOk.write (hst : NetworkOk P h E s₀ st) {c : Call} {res : Except TException Value}
    {before : List (Call × Except TException Value)} {answer : List β}
    (hpc : (st.clients t).pc = .waiting c) (hthread : st.threads t = .writing answer)
    (hconn : (st.clients t).transport = some ⟨[], []⟩) (hne : answer ≠ [])
    (hread : Reads (c.recv P) answer res) (hserved : st.servedFor h s₀ t = before ++ [(c, res)])
    (hret : (st.clients t).returned = before.map (reported E.what)) :
    ∃ st', st.write t = some st' ∧ NetworkOk P h E s₀ st' := by
  set client : RPCClient β :=
    { st.clients t with transport := some ⟨[], [] ++ answer⟩ } with hclient
  have hc : ClientOk P h E client .reading (st.servedFor h s₀ t) :=
    .answered c res before answer hpc rfl rfl hne hread hserved hret
  refine ⟨{ st with
    clients := Function.update st.clients t client
    threads := Function.update st.threads t .reading }, ?_, hst.goto hc rfl rfl rfl rfl⟩
  rw [Network.write, hthread, hconn]

theorem NetworkOk.step (hst : NetworkOk P h E s₀ st) (hP : P.Lawful) (hD : D.Lawful P)
    (hh : h.Sendable P) (hstd : h.StdOnly) {a : NetworkAct} (hs : st.step P D h E a = some st') :
    NetworkOk P h E s₀ st' := by
  have hdone : ∀ {x : Option (Network β σ)}, x = some st' →
      (∃ st'', x = some st'' ∧ NetworkOk P h E s₀ st'') → NetworkOk P h E s₀ st' := by
    rintro x rfl ⟨st'', hs', hst''⟩
    cases hs'
    exact hst''
  cases a with
  | attempt t opened =>
    obtain ⟨client, hc, rfl⟩ := Option.map_eq_some_iff.mp hs
    obtain ⟨hthread, hc⟩ := (hst.clients t).attempt hc
    exact hst.set hthread hc
  | call t c opened =>
    obtain ⟨client, hc, rfl⟩ := Option.map_eq_some_iff.mp hs
    obtain ⟨hthread, hc⟩ := (hst.clients t).call hc
    exact hst.set hthread hc
  | finish t =>
    obtain ⟨client, hc, rfl⟩ := Option.map_eq_some_iff.mp hs
    obtain ⟨hthread, hc⟩ := (hst.clients t).finish hc
    exact hst.set hthread hc
  | read t =>
    have hs : st.read P D h t = some st' := hs
    cases hst.clients t with
    | asking c hpc hthread hconn hret => exact hdone hs (hst.read hP hD hh hpc hthread hconn hret)
    | connecting n hpc hthread hlt hconn => rw [Network.read, hthread, hconn] at hs; cases hs
    | refused what hpc hthread hconn => rw [Network.read, hthread, hconn] at hs; cases hs
    | idle hpc hthread hconn =>
      rcases hconn with hconn | hconn <;> rw [Network.read, hthread, hconn] at hs <;> cases hs
    | asked c hpc hthread => rw [Network.read, hthread] at hs; cases hs
    | answering c res before answer hpc hthread => rw [Network.read, hthread] at hs; cases hs
    | answered c res before answer hpc hthread hconn =>
      rw [Network.read, hthread, hconn] at hs
      cases hs
  | run t =>
    have hs : st.run t = some st' := hs
    cases hst.clients t with
    | asked c hpc hthread hconn hret =>
      exact hdone hs (hst.run hP hh hstd hpc hthread hconn hret)
    | connecting n hpc hthread => rw [Network.run, hthread] at hs; cases hs
    | refused what hpc hthread => rw [Network.run, hthread] at hs; cases hs
    | idle hpc hthread => rw [Network.run, hthread] at hs; cases hs
    | asking c hpc hthread => rw [Network.run, hthread] at hs; cases hs
    | answering c res before answer hpc hthread => rw [Network.run, hthread] at hs; cases hs
    | answered c res before answer hpc hthread => rw [Network.run, hthread] at hs; cases hs
  | write t =>
    have hs : st.write t = some st' := hs
    cases hst.clients t with
    | answering c res before answer hpc hthread hconn hne hread hserved hret =>
      exact hdone hs (hst.write hpc hthread hconn hne hread hserved hret)
    | connecting n hpc hthread => rw [Network.write, hthread] at hs; cases hs
    | refused what hpc hthread => rw [Network.write, hthread] at hs; cases hs
    | idle hpc hthread => rw [Network.write, hthread] at hs; cases hs
    | asking c hpc hthread => rw [Network.write, hthread] at hs; cases hs
    | asked c hpc hthread => rw [Network.write, hthread] at hs; cases hs
    | answered c res before answer hpc hthread => rw [Network.write, hthread] at hs; cases hs

theorem networkOk_of_reach (hP : P.Lawful) (hD : D.Lawful P) (hh : h.Sendable P) (hstd : h.StdOnly)
    (hr : (network P D h E s₀).Reachable st) :
    NetworkOk P h E s₀ st := by
  refine hr.invariant (fun st hst => ?_) fun st a st' _ hst _ hs => hst.step hP hD hh hstd hs
  rw [hst]
  exact ⟨fun t => .connecting 0 rfl rfl (by decide) rfl rfl rfl, rfl⟩

/-! ### Runs -/

/-- **Calls of any number of clients are linearizable**, each client with a connection of its own,
which it opens and closes as it goes, and a thread of the server for it. What a client's calls have
returned, or thrown as a text, is what direct calls of the handler give, made in the order in which
the threads of the server have called it; at most the call that the client is in has been made for
it and not returned. A client that is in no call has nothing on its connection, and one that is in
a call can be brought on. -/
theorem clients_linearizable (hP : P.Lawful) (hD : D.Lawful P) (hh : h.Sendable P)
    (hstd : h.StdOnly) (hr : (network P D h E s₀).Reachable st) :
    st.handler = (freshAll h s₀ (st.served.map (·.call))).2 ∧
      (∀ t, (st.clients t).returned = (st.servedFor h s₀ t).map (reported E.what) ∨
        ∃ c res, (st.clients t).pc = .waiting c ∧
          (st.servedFor h s₀ t).map (reported E.what) =
            (st.clients t).returned ++ [reported E.what (c, res)]) ∧
      (∀ t, (st.clients t).pc = .idle →
        (st.clients t).returned = (st.servedFor h s₀ t).map (reported E.what) ∧
        ∀ conn, (st.clients t).transport = some conn → conn.requests = [] ∧ conn.answers = []) ∧
      ∀ t c, (st.clients t).pc = .waiting c →
        ∃ a ∈ [NetworkAct.read t, .run t, .write t, .finish t],
          (st.step P D h E a).isSome = true := by
  have hst := networkOk_of_reach hP hD hh hstd hr
  refine ⟨hst.handler, fun t => ?_, fun t hidle => ?_, fun t c hwait => ?_⟩
  · cases hst.clients t with
    | connecting n hpc hthread hlt hconn hret hserved => exact .inl (by rw [hret, hserved]; rfl)
    | refused what hpc hthread hconn hret hserved => exact .inl (by rw [hret, hserved]; rfl)
    | idle hpc hthread hconn hret => exact .inl hret
    | asking c hpc hthread hconn hret => exact .inl hret
    | asked c hpc hthread hconn hret => exact .inl hret
    | answering c res before answer hpc hthread hconn hne hread hserved hret =>
      exact .inr ⟨c, res, hpc, by rw [hret, hserved, List.map_append, List.map_singleton]⟩
    | answered c res before answer hpc hthread hconn hne hread hserved hret =>
      exact .inr ⟨c, res, hpc, by rw [hret, hserved, List.map_append, List.map_singleton]⟩
  · cases hst.clients t with
    | idle hpc hthread hconn hret =>
      refine ⟨hret, fun conn hsome => ?_⟩
      rcases hconn with hconn | hconn <;> rw [hconn] at hsome <;> cases hsome
      exact ⟨rfl, rfl⟩
    | connecting n hpc => rw [hpc] at hidle; cases hidle
    | refused what hpc => rw [hpc] at hidle; cases hidle
    | asking c hpc => rw [hpc] at hidle; cases hidle
    | asked c hpc => rw [hpc] at hidle; cases hidle
    | answering c res before answer hpc => rw [hpc] at hidle; cases hidle
    | answered c res before answer hpc => rw [hpc] at hidle; cases hidle
  · have hstep : ∀ {a : NetworkAct} {x : Option (Network β σ)}, st.step P D h E a = x →
        (∃ st', x = some st' ∧ NetworkOk P h E s₀ st') → (st.step P D h E a).isSome = true := by
      rintro a x rfl ⟨st', hs, -⟩
      rw [hs]
      rfl
    cases hst.clients t with
    | asking c hpc hthread hconn hret =>
      exact ⟨.read t, by simp, hstep rfl (hst.read hP hD hh hpc hthread hconn hret)⟩
    | asked c hpc hthread hconn hret =>
      exact ⟨.run t, by simp, hstep rfl (hst.run hP hh hstd hpc hthread hconn hret)⟩
    | answering c res before answer hpc hthread hconn hne hread hserved hret =>
      exact ⟨.write t, by simp, hstep rfl (hst.write hpc hthread hconn hne hread hserved hret)⟩
    | answered c res before answer hpc hthread hconn hne =>
      refine ⟨.finish t, by simp, ?_⟩
      rw [Network.step, RPCClient.finish, hpc, hconn]
      dsimp only
      rw [if_neg hne]
      rfl
    | connecting n hpc => rw [hpc] at hwait; cases hwait
    | refused what hpc => rw [hpc] at hwait; cases hwait
    | idle hpc => rw [hpc] at hwait; cases hwait

/-- A server on this machine. -/
def localhost : Setting where
  host := "127.0.0.1"
  port := 38888
  what
    | .application x => x.message
    | .transport what => what
    | _ => "Default TException."

/-- Two clients, whose requests are both read before the handler is called for either; the second
is told that there is no data, and calls again on the connection that it has. -/
def twoClients : List NetworkAct :=
  [.attempt 0 (.error "connect() failed"), .attempt 0 (.ok ()), .attempt 1 (.ok ()),
    .call 1 (.send "x") (.ok ()), .call 0 (.remoteTime 7) (.ok ()),
    .read 0, .read 1, .run 1, .run 0, .write 0, .write 1, .finish 1,
    .call 1 (.remoteTime 0) (.error "not tried"), .read 1, .finish 0, .run 1, .write 1, .finish 1]

theorem clients_linearizable_two : ∃ st : Network Byte ℕ,
    ((st.clients 0).returned.length, (st.clients 1).returned.length) = (1, 2) ∧
    st.handler = (freshAll counting 0 (st.served.map (·.call))).2 ∧
      (∀ t, (st.clients t).returned =
          (st.servedFor counting 0 t).map (reported localhost.what) ∨
        ∃ c res, (st.clients t).pc = .waiting c ∧
          (st.servedFor counting 0 t).map (reported localhost.what) =
            (st.clients t).returned ++ [reported localhost.what (c, res)]) ∧
      (∀ t, (st.clients t).pc = .idle →
        (st.clients t).returned = (st.servedFor counting 0 t).map (reported localhost.what) ∧
        ∀ conn, (st.clients t).transport = some conn → conn.requests = [] ∧ conn.answers = []) ∧
      ∀ t c, (st.clients t).pc = .waiting c →
        ∃ a ∈ [NetworkAct.read t, .run t, .write t, .finish t],
          (st.step binary (dispatcher binary) counting localhost a).isSome = true := by
  have hrun :
      (exec (Network.step · binary (dispatcher binary) counting localhost ·)
        ⟨fun _ => newClient, fun _ => .reading, 0, []⟩ twoClients).map
      (fun st =>
      ((st.clients 0).returned.length, (st.clients 1).returned.length)) = some (1, 2) := by
    decide +kernel
  obtain ⟨st, hst, hlen⟩ := Option.map_eq_some_iff.mp hrun
  exact ⟨st, hlen, clients_linearizable binary_lawful (dispatcher_lawful binary_lawful)
    counting_sendable counting_stdOnly
    (Lts.Reach.exec (fun _ _ _ h => h) (.init rfl) (fun _ _ _ => trivial) hst)⟩

end NetworkDemo.Rpc
