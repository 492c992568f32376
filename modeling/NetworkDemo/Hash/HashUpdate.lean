import NetworkDemo.Foundations.Loops
import Mathlib.Data.BitVec
import Mathlib.Data.Nat.Digits.Lemmas

/-!
# Hashing values

`hashUpdate` mixes a value into a hash byte by byte, from the low one on: each byte selects a
word of the table, which is added without carries, and the hash is rotated by one bit. The
value is incremented before, so that zero has a byte as well.

* `hashRun_iff` — hashing a stream comes to its end, after as many turns of the loop as its
  values, incremented, have bytes.
* `hashStream_apart` — the hashes of a stream from two states differ by what the states differ
  by, rotated by that number; so they never become the same.
* `absorbs_iff` — appending a value to a stream changes its hash, from some state, if and only
  if the value is not the largest.
-/

namespace NetworkDemo.Hash

open Foundations

/-- `uint64_t`. -/
abbrev Word := BitVec 64

set_option maxRecDepth 2048 in
def rtab : Vector Word 256 := #v[
  0x38e93aa9b144bda2, 0x960917d2c2c1a2d0, 0xf987068e080f6339, 0x139e10904dcb1856,
    0x7029b32ef8239339,
  0x0d6a94af0cfb711d, 0xec0422c8cc82d12b, 0x70392b5093b173a2, 0x637f4a9d67c3c0a3,
    0x09226c20ecc6885a,
  0xfe49eb4221257862, 0x2ea7c523885360bc, 0x8922bfdd63006621, 0x1b0315c2684a49a9,
    0xc61b4dff533d206b,
  0xa4a7e43d0b89546e, 0xa390266affbb3837, 0x6d6886f58151a639, 0x2ee2672ca133cf9b,
    0x54cca6168348e870,
  0x02dfa91a9eaf386d, 0x6167b087708dceea, 0x32ce1c94f6b8b629, 0x3711df620fab88a4,
    0x30df957f6c268277,
  0x8d0811ad76a1765f, 0x726cdf6dc3f62957, 0x08b122af8a124ba3, 0xafecd2cf94c15335,
    0xd85e198ec42019fc,
  0x318d432b821cce6e, 0xdc66b013eac54b21, 0x4da099b1d5b381ee, 0xd0ec9887c7c159e8,
    0xe643b3c100c5bd8e,
  0x11679c279eea9542, 0x79307576c04587ae, 0x1c3d6b927f5dcb24, 0x88a749f6f1028f81,
    0x2e52e4ef7160f5bb,
  0x7871571894d2390a, 0xe29beda4c83c9f22, 0x05abfaa357eafd1b, 0x41cce392870da74a,
    0x54d54e9a89d25107,
  0x8d885bec0eb940a4, 0x7e8dcd59db7c1c6b, 0x6e544e221f45d52f, 0xcadad836ba5a6621,
    0x2380667566cee47a,
  0x4c1950bb9d82c110, 0x9bd20af21a3cb1f5, 0x446ba4097169e713, 0x927900c45d977949,
    0x8c73f7ab277dc9c8,
  0x1f276e404ed3feb1, 0x41624f650031f6c7, 0xc3d6e42e585738e0, 0x31b23c2e74df754c,
    0x2af6c864c05b00f4,
  0xef8bec1ef5c7590f, 0xf74402cf08a5a942, 0xec6ad8cc8597f50a, 0x6adf839bd7199372,
    0x0ed0a820ae765b3a,
  0x782ea4816103f2f0, 0xad5c00e730737bf7, 0xeb1930ab40d6c44e, 0xd65706f13fa89b30,
    0x525cc03bf4841bc0,
  0x653dda543926d3e5, 0xd131996597bd2db3, 0x1bb33a368ef16469, 0xc45894961ab0470c,
    0x8585109d0fb64906,
  0xa1a7a52cfb6a0a65, 0xe8c284f9e1fc3ca2, 0x4ff686fbfe3ce189, 0x589d846738ce23f8,
    0x2ccc227b87af7a12,
  0xc98b627e12d4d12b, 0xae3e79716fe577b7, 0xe481746f9105f438, 0x0231d7a24605f4d9,
    0xf6741586635cdb96,
  0xb6b92cc84984cbcc, 0xf3c15be1bee6e1bd, 0xa3e74eb443d5c2c5, 0xcf64bd38c1f562cc,
    0xa5b55d41dae7b3c7,
  0x23e4f9292db71b7a, 0x7acefe7ff78726db, 0xe3bad26d00139aed, 0xbf117f0e55f66eea,
    0xdb9fdd2cb7c8f54c,
  0xeff80c9d3fa7632f, 0xf65b20ed600a9f93, 0x9035286e23bbbb7b, 0x95b4d683436a9960,
    0x513ee19b6a998a61,
  0xc8d1bfa8efb7c349, 0xc2fe99159fc54f97, 0x2c9be8d78112eb8e, 0xf1dfe85001df69ac,
    0xe1c5ffa79fdb7509,
  0x0df86932fc8c065c, 0xa5fd79b43e358bb6, 0x62e76a41497a1c83, 0x497094311b616305,
    0x42c0c69ceb7ced38,
  0x4eb35222f6e67f4f, 0x29fceb11c4ac91a9, 0xd1a3157f5d439627, 0xc293c7efda956725,
    0x8e9f34f743f822ad,
  0xa2e9957e3fb6eaf5, 0xb98c5ca900968076, 0x7e0d0617aadbb3e7, 0x7fff8303fd0da04c,
    0x1bf2358b93c9004b,
  0xc8966a3137ab2552, 0x77e24d735ba78048, 0x7e3e8fe06e551bdc, 0xa4e9f7669bba1340,
    0x31c759d0d1be0042,
  0x43ea570762218186, 0x49d9b40a84cd0707, 0xbcf962b0be3eb7ae, 0xa5813cfbcfb67040,
    0x95dfba755ee6b89b,
  0x2a4fa918c541925b, 0x562b5d3c7e2c36e7, 0xec5da7d3f5c3d3c4, 0x8672c470cf03ef22,
    0x9a7b152ed20a4d57,
  0x512483e9f32ca9fa, 0x01bdac76a9a83024, 0x68f13c4a3593461b, 0xd45e43ff6633b183,
    0x0771997d58073d02,
  0x6809f97e5c4d5af1, 0x406ee033ec764ccc, 0x9f155e0da508644b, 0xc80087adb53c0c40,
    0xd1828201df399ccc,
  0x22a0c79eaeeaaab0, 0x0d1ee8880344cfc5, 0x1158b70562df6398, 0x6089decb95dc42e9,
    0xd1aa0766a92ae1bb,
  0x6c9ee809eb5d8ff7, 0xb5dbf3ba51ae77d8, 0x040a72e576c14cf1, 0x08b34ff0da600641,
    0x492d67c654e0e3fe,
  0x3904510f382cf861, 0xf1706c1b84dc18db, 0x9143f04bba3152fd, 0x56ad7d08f4ab1368,
    0x2000749a91a52590,
  0x931119da85e712e0, 0x829515339365b6b4, 0x83082cd79488ef54, 0x56778d20b1e52a17,
    0x473dc0f8506588aa,
  0x8aed7294826e99df, 0xe368b026a1161fd3, 0xac22bde51e9c9678, 0x5283cdeb992f88fb,
    0x1f03b5cf0b665bf6,
  0xb9cfc98f9d80fd8e, 0x26e96b92a31f1bda, 0xe60cdcf9b95dd9b8, 0xfb9d45f3c10232a8,
    0x03e126aece5b8589,
  0xabc379d14db4d02b, 0xb041e868bf6b53fc, 0x352ea8a6d9b0eca4, 0x29a6c6c0e724fdae,
    0x92ed261b36adc3b0,
  0x54be8675584422db, 0x68c89a384c9c24c8, 0x5834f6128762eeac, 0xa2c5375bb331e615,
    0x6015479900f95612,
  0x717c149b20bfac9c, 0x15a1e6402c33973e, 0xd118363e55fc0048, 0x5d845d5a14bb5a02,
    0xc59a95e131e29198,
  0xdf3d445a0ec6b6b2, 0xe9270f18901005aa, 0xbe4ac8de40c727d5, 0x5f855aced267ff1c,
    0x419322d4ce78d691,
  0x36015b2528ea84c5, 0xf54b3c254a8d8d04, 0xfbe410bb705002ae, 0x07bac68efe19f88e,
    0x33df9819364de4fe,
  0x3cea137358eec043, 0xddc140cf05945cff, 0x345306415edb5078, 0x5cb2c84ece3977bd,
    0x2cd631d264603b50,
  0x8aa341a2b01516ed, 0xaf6b399e76c4418d, 0x9574f9300ce45b29, 0x99c41faffff9e225,
    0x437f809a88fa4269,
  0xf7f0b15315a7d86a, 0x6122494b15625cd9, 0x5124b9014ee206ac, 0x03bab5c28d52f402,
    0x6bdf24cbfb2b1b8c,
  0x8f353f5f9444b860, 0x149719d8870b2a2b, 0xf741ebea8eed7818, 0xd35dbc8bbfd1f7ca,
    0xfde505df6dd07467,
  0x6125306da4d6a38d, 0xd2af38affd1070ae, 0x1ffbeae984c02c28, 0x12f6a12f7a61ade8,
    0x3992ce66b7df9f29,
  0x384cad3908b5a0de, 0x3052b7df000026b8, 0xf8a45b1b04d0f2a1, 0x01fa54c51075a7f7,
    0x4cfce249a78d0626,
  0x1b2e44a84ba48447, 0xd26055fc72b5e89c, 0x42798c82c350719e, 0x8c0c4e12ea71e78c,
    0x2aabe281c469e1aa,
  0xf2d2f3b33a03ad6e, 0xedbee13ce3ca0c56, 0x74fa1e0d832f10ba, 0x4a5bedc230688905,
    0x1d3fafc325d91409,
  0x13469dfdd60fefa9, 0xd3f1d378a3015fd8, 0xcff290fc3a2d3ab3, 0xbc71a192e588eb8f,
    0xaf235696c37f4fd3,
  0xb49cadc4d3c4071a, 0xec4b298bbc19d767, 0x96067f2a06fb177f, 0xc241834108228b43,
    0x74773f423bf50de0,
  0x9e6273f155169800, 0x8d5b89dda7e7b710, 0xbafa2018d12d8c41, 0xb81775d216054151,
    0x18a8651a3002332e,
  0x8f16730042f14fd1]

theorem lowByte_lt (i : Word) : (i &&& 0xff).toNat < 256 := by
  have hle : (i &&& 0xff).toNat ≤ (0xff : Word).toNat := by
    rw [BitVec.toNat_and]
    exact Nat.and_le_right
  exact Nat.lt_succ_of_le hle

/-- One turn of the loop, without the shift of the value. -/
def turn (h i : Word) : Word :=
  let h := h ^^^ rtab.get ⟨(i &&& 0xff).toNat, lowByte_lt i⟩
  let b := (h &&& 0x8000000000000000) >>> 63
  h <<< 1 ||| b

/-- The loop of `hashUpdate`. -/
def hashLoop (h i : Word) : Word := if 0 < i then hashLoop (turn h i) (i >>> 8) else h
termination_by i.toNat
decreasing_by
  rename_i hpos
  rw [BitVec.toNat_ushiftRight, Nat.shiftRight_eq_div_pow]
  exact Nat.div_lt_self (BitVec.lt_def.mp hpos) (by decide)

/-- `hashUpdate`. -/
def hashUpdate (h i : Word) : Word := hashLoop h (i + 1)

/-- The hash of a stream of values. -/
def hashStream (values : List Word) (h : Word) : Word := values.foldl hashUpdate h

/-! ### Rotations -/

theorem getLsbD_rotate (x : Word) (r : ℕ) {i : ℕ} (hi : i < 64) :
    (x.rotateLeft r).getLsbD i = x.getLsbD ((i + (64 - r % 64)) % 64) := by
  have hr := Nat.mod_lt r (by decide : 0 < 64)
  rw [BitVec.getLsbD_rotateLeft]
  by_cases hlow : i < r % 64
  · have hplace : (i + (64 - r % 64)) % 64 = 64 - r % 64 + i := by omega
    rw [decide_eq_true hlow, cond_true, hplace]
  · have hplace : (i + (64 - r % 64)) % 64 = i - r % 64 := by omega
    rw [decide_eq_false hlow, cond_false, decide_eq_true hi, Bool.true_and, hplace]

theorem rotate_zero (x : Word) : x.rotateLeft 0 = x := by
  refine BitVec.eq_of_getLsbD_eq fun i hi => ?_
  have hplace : (i + (64 - 0 % 64)) % 64 = i := by omega
  rw [getLsbD_rotate _ _ hi, hplace]

/-- One rotation after another. -/
theorem rotate_rotate (x : Word) (r r' : ℕ) :
    (x.rotateLeft r).rotateLeft r' = x.rotateLeft (r + r') := by
  refine BitVec.eq_of_getLsbD_eq fun i hi => ?_
  have hplace : ((i + (64 - r' % 64)) % 64 + (64 - r % 64)) % 64 =
      (i + (64 - (r + r') % 64)) % 64 := by omega
  rw [getLsbD_rotate _ _ hi, getLsbD_rotate _ _ (Nat.mod_lt _ (by decide)),
    getLsbD_rotate _ _ hi, hplace]

theorem xor_rotate (x y : Word) (r : ℕ) :
    (x ^^^ y).rotateLeft r = x.rotateLeft r ^^^ y.rotateLeft r := by
  refine BitVec.eq_of_getLsbD_eq fun i hi => ?_
  rw [BitVec.getLsbD_xor, getLsbD_rotate _ _ hi, getLsbD_rotate _ _ hi, getLsbD_rotate _ _ hi,
    BitVec.getLsbD_xor]

/-- No bit is lost. -/
theorem rotate_inj {x y : Word} {r : ℕ} (h : x.rotateLeft r = y.rotateLeft r) : x = y := by
  -- 64 times as many places are all the way round
  have hround : ∀ z : Word, (z.rotateLeft r).rotateLeft (63 * r) = z := fun z => by
    have hzero : (r + 63 * r) % 64 = 0 := by omega
    rw [rotate_rotate, ← BitVec.rotateLeft_mod_eq_rotateLeft, hzero, rotate_zero]
  rw [← hround x, h, hround]

/-- A one is rotated to a place of its own. -/
theorem one_rotate_inj {r r' : ℕ} (h : (1 : Word).rotateLeft r = (1 : Word).rotateLeft r') :
    r % 64 = r' % 64 := by
  have hr := Nat.mod_lt r (by decide : 0 < 64)
  have hone : ∀ k, (1 : Word).getLsbD k = decide (k = 0) :=
    fun k => BitVec.getLsbD_one.trans (by simp)
  have hbit : ((1 : Word).rotateLeft r).getLsbD (r % 64) =
      ((1 : Word).rotateLeft r').getLsbD (r % 64) := by rw [h]
  have hzero : (r % 64 + (64 - r % 64)) % 64 = 0 := by omega
  rw [getLsbD_rotate _ _ hr, getLsbD_rotate _ _ hr, hone, hone, hzero, decide_eq_true rfl, eq_comm,
    decide_eq_true_iff] at hbit
  omega

/-- The top bit comes in below. -/
theorem shift_or_top (x : Word) :
    x <<< 1 ||| (x &&& 0x8000000000000000) >>> 63 = x.rotateLeft 1 := by
  have htop : (x &&& 0x8000000000000000) >>> 63 = x >>> 63 := by
    refine BitVec.eq_of_getLsbD_eq fun i hi => ?_
    rw [BitVec.getLsbD_ushiftRight, BitVec.getLsbD_ushiftRight, BitVec.getLsbD_and]
    rcases Nat.eq_zero_or_pos i with rfl | hpos
    · exact Bool.and_true _
    · rw [BitVec.getLsbD_of_ge x _ (by omega), Bool.false_and]
  rw [htop, BitVec.rotateLeft_def]

theorem turn_eq (h i : Word) :
    turn h i = (h ^^^ rtab.get ⟨(i &&& 0xff).toNat, lowByte_lt i⟩).rotateLeft 1 :=
  shift_or_top _

/-! ### Differences -/

/-- How many bytes a value has. -/
def bytesOf (i : Word) : ℕ := (Nat.digits 256 i.toNat).length

theorem bytesOf_zero : bytesOf 0 = 0 := by simp [bytesOf]

theorem bytesOf_shift {i : Word} (hi : 0 < i) : bytesOf i = 1 + bytesOf (i >>> 8) := by
  rw [bytesOf, Nat.digits_def' (by decide) (BitVec.lt_def.mp hi), List.length_cons, bytesOf,
    BitVec.toNat_ushiftRight, Nat.shiftRight_eq_div_pow, Nat.add_comm]

/-- A value that is not zero has one to eight bytes. -/
theorem bytesOf_bounds {i : Word} (hi : 0 < i) : 0 < bytesOf i ∧ bytesOf i ≤ 8 := by
  refine ⟨?_, ?_⟩
  · rw [bytesOf_shift hi]
    exact Nat.lt_add_right _ Nat.one_pos
  · rw [bytesOf, Nat.digits_length_le_iff (by decide)]
    exact i.isLt

theorem hashLoop_zero (h : Word) : hashLoop h 0 = h := by
  rw [hashLoop, if_neg (BitVec.lt_irrefl 0)]

theorem hashLoop_pos (h : Word) {i : Word} (hi : 0 < i) :
    hashLoop h i = hashLoop (turn h i) (i >>> 8) := by
  rw [hashLoop, if_pos hi]

/-- One turn: the word of the table does not matter for how two hashes differ. -/
theorem turn_xor (h h' i : Word) : turn h i ^^^ turn h' i = (h ^^^ h').rotateLeft 1 := by
  have hcancel : ∀ t : Word, h ^^^ t ^^^ (h' ^^^ t) = h ^^^ h' := by
    intro t
    rw [BitVec.xor_comm h' t, BitVec.xor_assoc, ← BitVec.xor_assoc t t, BitVec.xor_self,
      BitVec.zero_xor]
  rw [turn_eq, turn_eq, ← xor_rotate, hcancel]

theorem hashLoop_xor (h h' i : Word) :
    hashLoop h i ^^^ hashLoop h' i = (h ^^^ h').rotateLeft (bytesOf i) := by
  fun_induction hashLoop h i generalizing h' with
  | case1 h i hpos ih => rw [hashLoop_pos h' hpos, ih, turn_xor, rotate_rotate, bytesOf_shift hpos]
  | case2 h i hzero =>
    obtain rfl : i = 0 := BitVec.le_zero_iff.mp (BitVec.not_lt.mp hzero)
    rw [hashLoop_zero, bytesOf_zero, rotate_zero]

/-- The number of bytes of all values of a stream, each incremented. -/
def streamBytes (values : List Word) : ℕ := (values.map fun v => bytesOf (v + 1)).sum

/-- **The hashes of a stream** differ by what the states do, rotated. -/
theorem hashStream_xor (values : List Word) (h h' : Word) :
    hashStream values h ^^^ hashStream values h' = (h ^^^ h').rotateLeft (streamBytes values) := by
  induction values generalizing h h' with
  | nil => exact (rotate_zero _).symm
  | cons v values ih =>
    have hfirst : hashUpdate h v ^^^ hashUpdate h' v = (h ^^^ h').rotateLeft (bytesOf (v + 1)) :=
      hashLoop_xor h h' (v + 1)
    rw [streamBytes, List.map_cons, List.sum_cons, ← rotate_rotate, ← hfirst]
    exact ih (hashUpdate h v) (hashUpdate h' v)

/-- Two states do not come to the same hash. -/
theorem hashStream_injective (values : List Word) : Function.Injective (hashStream values) := by
  intro h h' hsame
  have hxor := hashStream_xor values h h'
  rw [hsame, BitVec.xor_self, xor_rotate, eq_comm, BitVec.xor_eq_zero_iff] at hxor
  exact rotate_inj hxor

/-! ### The turns of the loop -/

/-- One turn, of the hash and what is left of the value. -/
def loopTurn (s : Word × Word) : Word × Word := (turn s.1 s.2, s.2 >>> 8)

/-- The runs of `hashUpdate` on the values of a stream, all turns of its loop counted. -/
inductive HashRun : List Word → Word → ℕ → Word → Prop where
  | nil (h : Word) : HashRun [] h 0 h
  | cons {v h h' h'' i : Word} {values : List Word} {n m : ℕ} :
    WhileRun (fun s => 0 < s.2) loopTurn (h, v + 1) n (h', i) → HashRun values h' m h'' →
      HashRun (v :: values) h (n + m) h''

theorem hashLoop_run (h i : Word) :
    WhileRun (fun s => 0 < s.2) loopTurn (h, i) (bytesOf i) (hashLoop h i, 0) := by
  fun_induction hashLoop h i with
  | case1 h i hpos ih =>
    rw [bytesOf_shift hpos, Nat.add_comm]
    exact .turn hpos ih
  | case2 h i hzero =>
    obtain rfl : i = 0 := BitVec.le_zero_iff.mp (BitVec.not_lt.mp hzero)
    rw [bytesOf_zero]
    exact .exit hzero

/-- **The hashing of a stream** comes to its end, and takes one turn for each byte. -/
theorem hashRun_iff {values : List Word} {h r : Word} {n : ℕ} :
    HashRun values h n r ↔ n = streamBytes values ∧ r = hashStream values h := by
  constructor
  · intro hrun
    induction hrun with
    | nil h => exact ⟨rfl, rfl⟩
    | cons hloop _ ih =>
      obtain ⟨rfl, hend⟩ := (hashLoop_run _ _).unique hloop
      obtain ⟨rfl, rfl⟩ := Prod.mk.inj hend
      obtain ⟨rfl, rfl⟩ := ih
      exact ⟨rfl, rfl⟩
  · rintro ⟨rfl, rfl⟩
    induction values generalizing h with
    | nil => exact .nil h
    | cons v values ih => exact .cons (hashLoop_run h (v + 1)) ih

/-- **Streams never merge**: whatever two states the same values are hashed from, the hashing ends,
and what the hashes differ by is what the states differ by, rotated by the number of turns. -/
theorem hashStream_apart (values : List Word) (h h' : Word) :
    (∀ g n r, HashRun values g n r ↔ n = streamBytes values ∧ r = hashStream values g) ∧
    hashStream values h ^^^ hashStream values h' = (h ^^^ h').rotateLeft (streamBytes values % 64) ∧
    (h ≠ h' → hashStream values h ≠ hashStream values h') := by
  refine ⟨fun g n r => hashRun_iff, ?_, fun hne hsame => hne (hashStream_injective values hsame)⟩
  rw [BitVec.rotateLeft_mod_eq_rotateLeft]
  exact hashStream_xor values h h'

/-! ### Values that are not absorbed -/

/-- Some state is changed by a value, and hashing any stream is not hashing it with the value
behind. -/
def Absorbs (v : Word) : Prop :=
  (∃ h, hashUpdate h v ≠ h) ∧ ∀ values, ∃ h, hashStream (values ++ [v]) h ≠ hashStream values h

/-- **A value is absorbed** if and only if it can be incremented. -/
theorem absorbs_iff (v : Word) : Absorbs v ↔ v ≠ 18446744073709551615 := by
  constructor
  · rintro ⟨⟨h, hne⟩, -⟩ rfl
    exact hne (hashLoop_zero h)
  · intro hv
    have hpos : 0 < v + 1 := by
      have hlt := v.isLt
      have hne : v.toNat ≠ 18446744073709551615 := fun h => hv (BitVec.eq_of_toNat_eq h)
      have hone : (1 : Word).toNat = 1 := rfl
      rw [BitVec.lt_def, BitVec.toNat_add, hone, Nat.mod_eq_of_lt (by omega)]
      exact Nat.succ_pos _
    have hstreams : ∀ values, ∃ h, hashStream (values ++ [v]) h ≠ hashStream values h := by
      intro values
      by_contra hnone
      have hsame : ∀ h, hashStream (values ++ [v]) h = hashStream values h :=
        not_exists_not.mp hnone
      -- then a difference of one bit is rotated to the same place by one to eight more
      have hrotate := hashStream_xor (values ++ [v]) 1 0
      rw [hsame, hsame, hashStream_xor] at hrotate
      have hmore : streamBytes (values ++ [v]) = streamBytes values + bytesOf (v + 1) := by
        rw [streamBytes, List.map_append, List.sum_append, List.map_singleton,
          List.sum_singleton, streamBytes]
      have hplace := one_rotate_inj hrotate
      rw [hmore] at hplace
      obtain ⟨hmin, hmax⟩ := bytesOf_bounds hpos
      omega
    exact ⟨hstreams [], hstreams⟩

/-- The largest value leaves every hash as it is. -/
theorem not_absorbs : (∀ h, hashUpdate h 18446744073709551615 = h) ∧
    ¬ Absorbs 18446744073709551615 :=
  ⟨hashLoop_zero, fun ⟨⟨h, hne⟩, _⟩ => hne (hashLoop_zero h)⟩

end NetworkDemo.Hash
