import NetworkDemo.Foundations.Runs
import NetworkDemo.PODArray.Heap

/-!
# The arrays

A `PODArray` is three pointers and a node. A method of an array is a function of the memory
and the array, and `none` if an allocation fails. Arguments that are elements, or a range of
them, are given by their values: they do not lie in the array itself.

## The model

The program has any number of arrays, by number, and creates them, calls their methods,
assigns, swaps, moves, clones and destroys them, one operation after the other (`podArrays`).
A `PODArray` that a function returns is the one it made. Calls of `operator[]` and the
iterators are reads of `contents`.
-/

namespace NetworkDemo.PODArray

open Foundations

/-- An element: its bytes. -/
abbrev Elem (C : Template) : Type := Fin C.elementSize.toNat → Byte

/-- A `PODArray`. -/
structure Arr where
  cStart : Size
  cEnd : Size
  cEndOfStorage : Size
  socketId : ℤ

namespace Arr

variable (C : Template) (a : Arr)

/-- `PODArrayBase(socket_id)`. -/
def new (socketId : ℤ) : Arr := ⟨C.null, C.null, C.null, socketId⟩

/-- `size()`: the bytes between the pointers, in elements. -/
def size : Size := (a.cEnd - a.cStart) / C.elementSize

/-- `capacity()`. -/
def capacity : Size := (a.cEndOfStorage - a.cStart) / C.elementSize

/-- `allocated_bytes()`, with the paddings. -/
def allocatedBytes : Size := a.cEndOfStorage - a.cStart + C.padRight + C.padLeft

/-- `isInitialized()`: none of the pointers is `null`. -/
def isInitialized : Bool := a.cStart ≠ C.null && a.cEnd ≠ C.null && a.cEndOfStorage ≠ C.null

/-- `socket_id == -1` is interleaved. -/
def node : Option ℤ := if a.socketId = -1 then none else some a.socketId

/-- The bytes from `p` on are in the storage. -/
def Covers (p n : ℕ) : Prop := a.cStart.toNat ≤ p ∧ p + n ≤ a.cEndOfStorage.toNat

instance (p n : ℕ) : Decidable (a.Covers p n) := inferInstanceAs (Decidable (_ ∧ _))

/-- What `size()` and `operator[]` read. -/
def contents (mem : ℕ → Byte) : List (Elem C) :=
  records C.elementSize.toNat mem a.cStart.toNat (a.size C).toNat

@[simp] theorem length_contents (mem : ℕ → Byte) : (a.contents C mem).length = (a.size C).toNat :=
  length_records

/-- The element at index -1. -/
def before (mem : ℕ → Byte) : Elem C :=
  record C.elementSize.toNat mem (a.cStart - C.elementSize).toNat 0

end Arr

/-! ### Methods -/

section Methods

variable (C : Template)

/-- `alloc(bytes)`. The element before the first is cleared, which faults if there is no block. -/
def alloc (bytes : Size) (s : Heap × Arr) : Option (Heap × Arr) :=
  if bytes = 0 ∧ C.padLeft ≠ 0 then none
  else (s.1.numaAlloc C s.2.node bytes).map fun r =>
    let cStart := r.1 + C.padLeft
    let a : Arr := { s.2 with
      cStart := cStart, cEnd := cStart, cEndOfStorage := cStart + bytes - C.padRight - C.padLeft }
    (if C.padLeft ≠ 0 then r.2.zero (cStart - C.elementSize) C.elementSize else r.2, a)

/-- `alloc_for_num_elements`. -/
def allocForNumElements (n : Size) : Heap × Arr → Option (Heap × Arr) :=
  alloc C (roundUpToPowerOfTwoOrZero (C.minimumMemoryForElements n))

/-- `dealloc()`. -/
def dealloc (s : Heap × Arr) : Heap :=
  if s.2.cStart = C.null then s.1 else s.1.numaFree (s.2.cStart - C.padLeft) (s.2.allocatedBytes C)

/-- `realloc(bytes)`. -/
def realloc (bytes : Size) (s : Heap × Arr) : Option (Heap × Arr) :=
  if s.2.cStart = C.null then alloc C bytes s
  else
    let endDiff := s.2.cEnd - s.2.cStart
    (s.1.numaRealloc C (s.2.cStart - C.padLeft) (s.2.allocatedBytes C) bytes).map fun r =>
      let cStart := r.1 + C.padLeft
      (r.2, { s.2 with
        cStart := cStart, cEnd := cStart + endDiff,
        cEndOfStorage := cStart + bytes - C.padRight - C.padLeft })

/-- The bytes of the first allocation of an array that is pushed to. -/
def firstBytes : Size :=
  let wanted := ((C.initialSize - 1) / C.elementSize + 1) * C.elementSize
  let least := C.minimumMemoryForElements 1
  if wanted < least then least else wanted

/-- `reserveForNextSize()`: a first block, or twice the bytes. -/
def reserveForNextSize (s : Heap × Arr) : Option (Heap × Arr) :=
  if s.2.size C = 0 then realloc C (firstBytes C) s else realloc C (s.2.allocatedBytes C * 2) s

/-- `reserve(n)`. -/
def reserve (n : Size) (s : Heap × Arr) : Option (Heap × Arr) :=
  if s.2.capacity C < n then realloc C (roundUpToPowerOfTwoOrZero (C.minimumMemoryForElements n)) s
    else some s

/-- `c_end` is set. -/
def setEnd (cEnd : Size) (s : Heap × Arr) : Heap × Arr := (s.1, { s.2 with cEnd := cEnd })

/-- `resize_assume_reserved`. -/
def resizeAssumeReserved (n : Size) (s : Heap × Arr) : Heap × Arr :=
  setEnd (s.2.cStart + C.byteSize n) s

/-- `resize(n)`. -/
def resize (n : Size) (s : Heap × Arr) : Option (Heap × Arr) :=
  (reserve C n s).map (resizeAssumeReserved C n)

/-- `clear()`: the storage is kept. -/
def clear (s : Heap × Arr) : Heap × Arr := setEnd s.2.cStart s

variable {C}

/-- Elements are written from `p` on. -/
def put (p : Size) (xs : List (Elem C)) (s : Heap × Arr) : Heap × Arr :=
  ({ s.1 with
    mem := storeRecords s.1.mem p.toNat xs
    stray :=
      s.1.stray ||
      (!xs.isEmpty && !decide (s.2.Covers p.toNat (xs.length * C.elementSize.toNat))) }, s.2)

/-- An element is constructed at `c_end`, and `c_end` advanced: what `push_back` and its kin have in
common. -/
def append (x : Elem C) (s : Heap × Arr) : Option (Heap × Arr) :=
  (if s.2.cEnd = s.2.cEndOfStorage then reserveForNextSize C s else some s).map fun s =>
    setEnd (s.2.cEnd + C.byteSize 1) (put s.2.cEnd [x] s)

/-- `push_back_raw`, by `memcpy`. -/
def pushBackRaw (x : Elem C) : Heap × Arr → Option (Heap × Arr) := append x

/-- `push_back`. -/
def pushBack (x : Elem C) : Heap × Arr → Option (Heap × Arr) := append x

/-- `emplace_back`, with the element its arguments construct. -/
def emplaceBack (x : Elem C) : Heap × Arr → Option (Heap × Arr) := append x

variable (C) in
/-- `pop_back`. -/
def popBack (s : Heap × Arr) : Heap × Arr := setEnd (s.2.cEnd - C.byteSize 1) s

/-- `n` elements of which those behind the old ones are `x`. -/
def resizeWith (n : Size) (x : Elem C) (s : Heap × Arr) : Option (Heap × Arr) :=
  let oldSize := s.2.size C
  (if oldSize < n then
    (reserve C n s).map fun s => put s.2.cEnd (List.replicate (n - oldSize).toNat x) s
  else some s).map fun s => setEnd (s.2.cStart + C.byteSize n) s

variable (C) in
/-- `resize_fill(n)`, by `memset`. -/
def resizeFill (n : Size) : Heap × Arr → Option (Heap × Arr) := resizeWith (C := C) n fun _ => 0

/-- `resize_fill(n, value)`. -/
def resizeFillValue (n : Size) (value : Elem C) : Heap × Arr → Option (Heap × Arr) :=
  resizeWith n value

variable (C) in
/-- What `insertPrepare` and `assign` do for a capacity. -/
def require (requiredCapacity : Size) (s : Heap × Arr) : Option (Heap × Arr) :=
  if s.2.capacity C < requiredCapacity then reserve C (roundUpToPowerOfTwoOrZero requiredCapacity) s
    else some s

variable (C) in
/-- `insertPrepare`, for a range of `n` elements. -/
def insertPrepare (n : Size) (s : Heap × Arr) : Option (Heap × Arr) := require C (s.2.size C + n) s

/-- The length of a range. -/
def count (ys : List (Elem C)) : Size := BitVec.ofNat 64 ys.length

/-- `insert_assume_reserved`. -/
def insertAssumeReserved (ys : List (Elem C)) (s : Heap × Arr) : Heap × Arr :=
  setEnd (s.2.cEnd + C.byteSize (count ys)) (put s.2.cEnd ys s)

/-- `insert(from_begin, from_end)`. -/
def insert (ys : List (Elem C)) (s : Heap × Arr) : Option (Heap × Arr) :=
  (insertPrepare C (count ys) s).map (insertAssumeReserved ys)

/-- `detail::memcpySmallAllowReadWriteOverflow15Impl`, of at most as many blocks as the first number
says: how many bytes are written, and the memory after that. The bytes of the source are `src`. -/
def memcpySmallAllowReadWriteOverflow15Impl (src : ℕ → Byte) :
    ℕ → (ℕ → Byte) → ℕ → ℕ → ℤ → ℕ × (ℕ → Byte)
  | 0, mem, _, _, _ => (0, mem)
  | blocks + 1, mem, dst, k, n =>
    if 0 < n then
      let block : ℕ → Byte := fun q => if dst ≤ q ∧ q < dst + 16 then src (k + (q - dst)) else mem q
      let r := memcpySmallAllowReadWriteOverflow15Impl src blocks block (dst + 16) (k + 16) (n - 16)
      (16 + r.1, r.2)
    else (0, mem)

/-- `memcpySmallAllowReadWriteOverflow15(dst, src, n)`: the `size_t` becomes an `ssize_t`. -/
def memcpySmallAllowReadWriteOverflow15 (mem : ℕ → Byte) (dst : Size) (src : ℕ → Byte) (n : Size) :
    ℕ × (ℕ → Byte) :=
  memcpySmallAllowReadWriteOverflow15Impl src n.toNat mem dst.toNat 0 n.toInt

/-- The bytes of a range, and what is behind it in its memory. -/
def rangeBytes (ys : List (Elem C)) (behind : ℕ → Byte) : ℕ → Byte :=
  storeRecords (fun k => behind (k - ys.length * C.elementSize.toNat)) 0 ys

/-- `insertSmallAllowReadWriteOverflow15`: what is behind the range in its memory is `behind`, and
up to 15 bytes of it are copied too. -/
def insertSmall (ys : List (Elem C)) (behind : ℕ → Byte) (s : Heap × Arr) : Option (Heap × Arr) :=
  (insertPrepare C (count ys) s).map fun s =>
    let bytesToCopy := C.byteSize (count ys)
    let copied :=
      memcpySmallAllowReadWriteOverflow15 s.1.mem s.2.cEnd (rangeBytes ys behind) bytesToCopy
    setEnd (s.2.cEnd + bytesToCopy) ({ s.1 with
      mem := copied.2
      stray := s.1.stray ||
        (!ys.isEmpty && !decide (s.2.Covers s.2.cEnd.toNat (ys.length * C.elementSize.toNat))) },
          s.2)

/-- `insert(it, from_begin, from_end)`. A difference of pointers has a meaning in one array, and
`it` is of the array that the storage was at the call. -/
def insertAt (it : Size) (ys : List (Elem C)) (s : Heap × Arr) : Option (Heap × Arr) :=
  (insertPrepare C (count ys) s).map fun t =>
    let bytesToCopy := C.byteSize (count ys)
    let bytesToMove := (t.2.cEnd - it) / C.elementSize * C.elementSize
    let inside := t.2.cStart = s.2.cStart ∧ t.2.cStart ≤ it ∧ it ≤ t.2.cEnd
    let h := { t.1 with meaningless := t.1.meaningless || !decide inside }
    let h := if bytesToMove ≠ 0 then
        h.memcpy (t.2.cEnd + bytesToCopy - bytesToMove) (t.2.cEnd - bytesToMove) bytesToMove
      else h
    setEnd (t.2.cEnd + bytesToCopy) (put (t.2.cEnd - bytesToMove) ys (h, t.2))

/-- `assign(n, x)`. -/
def assignValue (n : Size) (x : Elem C) (s : Heap × Arr) : Option (Heap × Arr) :=
  (resize C n s).map fun s => put s.2.cStart (List.replicate (s.2.size C).toNat x) s

/-- `assign(from_begin, from_end)`. -/
def assign (ys : List (Elem C)) (s : Heap × Arr) : Option (Heap × Arr) :=
  (require C (count ys) s).map fun s => setEnd (s.2.cStart + C.byteSize (count ys))
    (put s.2.cStart ys s)

variable (C) in
/-- `PODArray(n, socket_id)`. -/
def sized (n : Size) (s : Heap × Arr) : Option (Heap × Arr) :=
  (allocForNumElements C n s).map fun s => setEnd (s.2.cEnd + C.byteSize n) s

/-- `PODArray(from_begin, from_end)`. -/
def ranged (ys : List (Elem C)) (s : Heap × Arr) : Option (Heap × Arr) :=
  (allocForNumElements C (count ys) s).bind (insert ys)

variable (C) in
/-- `swap`, of the array and `rhs`. -/
def swap (a rhs : Arr) : Arr × Arr :=
  if a.isInitialized C = false ∧ rhs.isInitialized C = false then
    ({ a with socketId := rhs.socketId }, { rhs with socketId := a.socketId })
  else (rhs, a)

/-- What `clone` does to the array it returns: it assigns the elements `ys`, and copies what is
before them, `left`. -/
def cloneInto (ys : List (Elem C)) (left : Elem C) (s : Heap × Arr) : Option (Heap × Arr) :=
  ((sized C (count ys) s).bind (assign ys)).map fun s =>
    if s.2.size C ≠ 0 then ({ s.1 with
      mem := storeRecords s.1.mem (s.2.cStart - C.elementSize).toNat [left] }, s.2)
    else s

end Methods

/-! ### The program -/

/-- A call of a method, with its arguments. The iterator of `insertAt` is `begin() + p`. -/
inductive Method (C : Template) where
  | reserve (n : Size)
  | resize (n : Size)
  | resizeFill (n : Size)
  | resizeFillValue (n : Size) (value : Elem C)
  | pushBack (x : Elem C)
  | emplaceBack (x : Elem C)
  | pushBackRaw (x : Elem C)
  | popBack
  | clear
  | insert (ys : List (Elem C))
  | insertSmall (ys : List (Elem C)) (behind : ℕ → Byte)
  | insertAt (p : Size) (ys : List (Elem C))
  | assignValue (n : Size) (x : Elem C)
  | assign (ys : List (Elem C))

/-- What a call does. -/
def Method.run {C : Template} (s : Heap × Arr) : Method C → Option (Heap × Arr)
  | .reserve n => PODArray.reserve C n s
  | .resize n => PODArray.resize C n s
  | .resizeFill n => PODArray.resizeFill C n s
  | .resizeFillValue n value => PODArray.resizeFillValue n value s
  | .pushBack x => PODArray.pushBack x s
  | .emplaceBack x => PODArray.emplaceBack x s
  | .pushBackRaw x => PODArray.pushBackRaw x s
  | .popBack => some (PODArray.popBack C s)
  | .clear => some (PODArray.clear s)
  | .insert ys => PODArray.insert ys s
  | .insertSmall ys behind => PODArray.insertSmall ys behind s
  | .insertAt p ys => PODArray.insertAt (s.2.cStart + C.byteSize p) ys s
  | .assignValue n x => PODArray.assignValue n x s
  | .assign ys => PODArray.assign ys s

/-- An operation of the program. -/
inductive Op (C : Template) where
  /-- `PODArray(socket_id)`. -/
  | create (i : ℕ) (socketId : ℤ)
  /-- `PODArray(n, socket_id)`. -/
  | createSized (i : ℕ) (n : Size) (socketId : ℤ)
  /-- `PODArray(from_begin, from_end)`, and from an `initializer_list`. -/
  | createRange (i : ℕ) (ys : List (Elem C))
  | call (i : ℕ) (m : Method C)
  /-- `assign(from)`. -/
  | assignFrom (i j : ℕ)
  | swap (i j : ℕ)
  /-- `PODArray(PODArray &&)`. -/
  | moveConstruct (i j : ℕ)
  /-- `operator=(PODArray &&)`. -/
  | moveAssign (i j : ℕ)
  /-- `clone()`. -/
  | clone (i j : ℕ)
  | destroy (i : ℕ)

/-- A program's arrays, and the heap they have their blocks from. -/
structure State where
  heap : Heap
  arrays : ℕ → Option Arr

namespace State

/-- Array `i` comes into being, or is what it is now. -/
def set (s : State) (i : ℕ) (r : Heap × Arr) : State := ⟨r.1, Function.update s.arrays i (some r.2)⟩

/-- An array is constructed: `i` is the number of none. -/
def construct (s : State) (i : ℕ) (f : Heap → Option (Heap × Arr)) : Option State :=
  if s.arrays i = none then (f s.heap).map (s.set i) else none

end State

/-- Two arrays are swapped. -/
def swapAt (C : Template) (s : State) (i j : ℕ) : Option State :=
  (s.arrays i).bind fun a => (s.arrays j).map fun rhs =>
    let r := swap C a rhs
    ⟨s.heap, Function.update (Function.update s.arrays j (some r.2)) i (some r.1)⟩

/-- One operation. -/
def step {C : Template} (s : State) : Op C → Option State
  | .create i socketId => s.construct i fun h => some (h, Arr.new C socketId)
  | .createSized i n socketId => s.construct i fun h => sized C n (h, Arr.new C socketId)
  | .createRange i ys => s.construct i fun h => ranged ys (h, Arr.new C (-1))
  | .call i m => (s.arrays i).bind fun a => (m.run (s.heap, a)).map (s.set i)
  | .assignFrom i j =>
    (s.arrays i).bind fun a => (s.arrays j).bind fun b =>
      (assign (b.contents C s.heap.mem) (s.heap, a)).map (s.set i)
  | .swap i j => swapAt C s i j
  | .moveConstruct i j =>
    (s.arrays j).bind fun _ => (s.construct i fun h => some (h, Arr.new C (-1))).bind fun s =>
      swapAt C s i j
  | .moveAssign i j => swapAt C s i j
  | .clone i j =>
    (s.arrays j).bind fun b => s.construct i fun h =>
      cloneInto (b.contents C h.mem) (b.before C h.mem) (h, Arr.new C (-1))
  | .destroy i => (s.arrays i).map fun a => ⟨dealloc C (s.heap, a), Function.update s.arrays i none⟩

/-! ### Sizes that fit -/

section Fits

variable {C : Template}

/-- The bytes of `required` elements, and those of the power of two that the capacity is raised to
if it is less. -/
def GrowFits (C : Template) (a : Arr) (required : ℕ) : Prop :=
  C.Fits required ∧ ((a.capacity C).toNat < required →
    C.Fits (roundUpToPowerOfTwoOrZero (BitVec.ofNat 64 required)).toNat)

/-- The bytes that `reserveForNextSize` allocates, if it is called. -/
def NextFits (C : Template) (a : Arr) : Prop :=
  a.cEnd = a.cEndOfStorage →
    if a.size C = 0 then C.Fits 1 ∧ (firstBytes C).toNat < 2 ^ 63
      else (a.allocatedBytes C).toNat * 2 < 2 ^ 63

/-- The byte counts of a call are below `2⁶³`. -/
def Method.Fits (a : Arr) : Method C → Prop
  | .reserve n => C.Fits n.toNat
  | .resize n => C.Fits n.toNat
  | .resizeFill n => C.Fits n.toNat
  | .resizeFillValue n _ => C.Fits n.toNat
  | .pushBack _ => NextFits C a
  | .emplaceBack _ => NextFits C a
  | .pushBackRaw _ => NextFits C a
  | .popBack => True
  | .clear => True
  | .insert ys => GrowFits C a ((a.size C).toNat + ys.length)
  | .insertSmall ys _ => GrowFits C a ((a.size C).toNat + ys.length)
  | .insertAt _ ys => GrowFits C a ((a.size C).toNat + ys.length)
  | .assignValue n _ => C.Fits n.toNat
  | .assign ys => GrowFits C a ys.length

/-- The byte counts of an operation are. -/
def Op.Fits (s : State) : Op C → Prop
  | .create _ _ => True
  | .createSized _ n _ => C.Fits n.toNat
  | .createRange _ ys => C.Fits ys.length
  | .call i m => ∀ a, s.arrays i = some a → m.Fits a
  | .assignFrom i j =>
    ∀ a b, s.arrays i = some a → s.arrays j = some b → GrowFits C a (b.size C).toNat
  | .swap _ _ => True
  | .moveConstruct _ _ => True
  | .moveAssign _ _ => True
  | .clone _ j => ∀ b, s.arrays j = some b → C.Fits (b.size C).toNat
  | .destroy _ => True

end Fits

/-- Before the first operation: `EmptyPODArray` is zero. -/
def Initial (C : Template) (s : State) : Prop :=
  s.heap.blocks = [] ∧ s.heap.made = 0 ∧ s.heap.freed = [] ∧ s.heap.misused = false ∧
    s.heap.stray = false ∧
    (∀ i, s.arrays i = none) ∧
    ∀ q, C.emptyPODArray.toNat ≤ q → q < C.emptyPODArray.toNat + 1024 → s.heap.mem q = 0

/-- A program that uses `PODArray`s. -/
def podArrays (C : Template) : Lts State (Op C) where
  init := Initial C
  step s op s' := step s op = some s'

/-- `Vector` of elements of four bytes, and `EmptyPODArray` at 4096. -/
def vector : Template where
  elementSize := 4
  initialSize := 4096
  rightArg := 15
  leftArg := 16
  emptyPODArray := 4096
  elementSize_pos := by decide
  assert := by decide
  placed := by decide

/-- No arrays, and an allocator that answers with the addresses `base`. -/
def start (base : ℕ → Size) : State where
  heap :=
    { mem := fun q => if q < 65536 then 0 else 255, blocks := [], made := 0, freed := [],
      supply := fun k => ⟨base k, fun _ => 255⟩, asked := 0, misused := false,
      stray := false, meaningless := false }
  arrays _ := none

theorem start_initial {C : Template} (h : C.emptyPODArray.toNat + 1024 ≤ 65536) (base : ℕ → Size) :
    Initial C (start base) :=
  ⟨rfl, rfl, rfl, rfl, rfl, fun _ => rfl, fun q _ hq => if_pos (by omega)⟩

end NetworkDemo.PODArray
