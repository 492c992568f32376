import NetworkDemo.Rpc.Client

/-!
# Several handlers

A `TestProtoMultiface` is a handler made of others, which it calls one after the other; the last
one's result is the result. `TestProtoNull` is a handler that does nothing.

* `multiface_eq` — a multiface with handlers calls them in order, up to the first that throws,
  each `send` being given what the one before has left. Without handlers it goes for one that
  is not there.
-/

namespace NetworkDemo.Rpc

open Foundations Foundations.Reader

variable {α σ : Type}

/-- `TestProtoNull`. -/
def testProtoNull : TestProtoIf σ := ⟨fun s => (.ok 0, s), fun ret s => (.ok ret, s)⟩

/-- `for (; i < (sz - 1); ++i) ifaces_[i]->m(_return);`, which is `n` turns, and then the call for
the last `i`. It is none if there is no `ifaces_[i]`. -/
def multiLoop (m : TestProtoIf σ → α → σ → Except Thrown α × σ) (ifaces : List (TestProtoIf σ)) :
    (n i : ℕ) → α → σ → Option (Except Thrown α × σ)
  | n, i, ret, s =>
    match ifaces[i]? with
    | none => none
    | some iface =>
      match m iface ret s, n with
      | (.error e, s), _ => some (.error e, s)
      | (.ok ret, s), 0 => some (.ok ret, s)
      | (.ok ret, s), n + 1 => multiLoop m ifaces n (i + 1) ret s

/-- `sz - 1`, unsigned. -/
def lastIndex (ifaces : List (TestProtoIf σ)) : ℕ := (BitVec.ofNat 64 ifaces.length - 1).toNat

/-- `TestProtoMultiface::remoteTime`; what the others return is dropped. -/
def multifaceRemoteTime (ifaces : List (TestProtoIf σ)) (s : σ) : Option (Except Thrown I64 × σ) :=
  multiLoop (fun iface _ s => iface.remoteTime s) ifaces (lastIndex ifaces) 0 0 s

/-- `TestProtoMultiface::send`. -/
def multifaceSend (ifaces : List (TestProtoIf σ)) (ret : String) (s : σ) :
    Option (Except Thrown String × σ) :=
  multiLoop TestProtoIf.send ifaces (lastIndex ifaces) 0 ret s

/-- One handler after the other. -/
def callAll (m : TestProtoIf σ → α → σ → Except Thrown α × σ) :
    List (TestProtoIf σ) → α → σ → Except Thrown α × σ
  | [], ret, s => (.ok ret, s)
  | iface :: ifaces, ret, s =>
    match m iface ret s with
    | (.error e, s) => (.error e, s)
    | (.ok ret, s) => callAll m ifaces ret s

theorem multiLoop_eq (m : TestProtoIf σ → α → σ → Except Thrown α × σ)
    (ifaces : List (TestProtoIf σ)) {n i : ℕ} (hi : i + n + 1 = ifaces.length) (ret : α) (s : σ) :
    multiLoop m ifaces n i ret s = some (callAll m (ifaces.drop i) ret s) := by
  have hlt : i < ifaces.length := by omega
  induction n generalizing i ret s with
  | zero =>
    have hdrop : ifaces.drop (i + 1) = [] := List.drop_eq_nil_of_le (by omega)
    rw [multiLoop, List.getElem?_eq_getElem hlt, List.drop_eq_getElem_cons hlt, hdrop]
    rcases hm : m ifaces[i] ret s with ⟨e | ret', s'⟩ <;> simp [callAll, hm]
  | succ n ih =>
    rw [multiLoop, List.getElem?_eq_getElem hlt, List.drop_eq_getElem_cons hlt]
    rcases hm : m ifaces[i] ret s with ⟨e | ret', s'⟩
    · simp [callAll, hm]
    · simp [callAll, hm, ih (i := i + 1) (by omega) ret' s' (by omega)]

theorem lastIndex_eq {ifaces : List (TestProtoIf σ)} (hne : ifaces ≠ [])
    (hlen : ifaces.length < 2 ^ 64) :
    lastIndex ifaces = ifaces.length - 1 := by
  have hpos := List.length_pos_of_ne_nil hne
  have hmod : ifaces.length % 2 ^ 64 = ifaces.length := Nat.mod_eq_of_lt hlen
  have hone : (1 : BitVec 64).toNat = 1 := rfl
  rw [lastIndex, BitVec.toNat_sub, BitVec.toNat_ofNat, hone]
  omega

theorem multiLoop_nil (m : TestProtoIf σ → α → σ → Except Thrown α × σ) (n : ℕ) (ret : α) (s : σ) :
    multiLoop m [] n 0 ret s = none := by
  rw [multiLoop]
  rfl

/-- **A multiface calls its handlers in order**, and with none of them there is nothing to call. -/
theorem multiface_eq (ifaces : List (TestProtoIf σ)) (hlen : ifaces.length < 2 ^ 64)
    (ret : String) (s : σ) :
    (ifaces ≠ [] → multifaceRemoteTime ifaces s = some
      (callAll (fun iface _ s => iface.remoteTime s) ifaces 0 s) ∧
      multifaceSend ifaces ret s = some (callAll TestProtoIf.send ifaces ret s)) ∧
    (ifaces = [] → multifaceRemoteTime ifaces s = none ∧ multifaceSend ifaces ret s = none) := by
  refine ⟨fun hne => ?_, fun hnil => ?_⟩
  · have hpos := List.length_pos_of_ne_nil hne
    have hlast : 0 + lastIndex ifaces + 1 = ifaces.length := by
      rw [lastIndex_eq hne hlen]
      omega
    exact ⟨multiLoop_eq _ ifaces hlast 0 s, multiLoop_eq _ ifaces hlast ret s⟩
  · subst hnil
    exact ⟨multiLoop_nil _ _ _ _, multiLoop_nil _ _ _ _⟩

/-- One that counts, one that does nothing, and one that counts again: the `send`s end with the
first. -/
theorem multiface_eq_three :
    ([counting, testProtoNull, counting] ≠ [] →
      multifaceRemoteTime [counting, testProtoNull, counting] 0 =
          some (callAll (fun iface _ s => iface.remoteTime s)
            [counting, testProtoNull, counting] 0 0) ∧
        multifaceSend [counting, testProtoNull, counting] "" 0 =
          some (callAll TestProtoIf.send [counting, testProtoNull, counting] "" 0)) ∧
    ([counting, testProtoNull, counting] = [] →
      multifaceRemoteTime [counting, testProtoNull, counting] 0 = none ∧
        multifaceSend [counting, testProtoNull, counting] "" 0 = none) :=
  multiface_eq [counting, testProtoNull, counting] (by decide) "" 0

end NetworkDemo.Rpc
