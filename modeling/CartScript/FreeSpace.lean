import CartScript.Assembly.Fault

/-!
# Free space

Data without a place of its own is put into free bytes of the image.  A `FreeSpacePolicy` says which
bytes are free and which run of them is picked; an `Allocator` hands out runs and remembers what is
taken.

The intervals of an allocator are kept sorted and apart from each other.
-/

namespace CartScript

/-- The offsets from `start` on and before `stop`. -/
structure Interval where
  start : Nat
  stop : Nat
  deriving Repr, DecidableEq, Inhabited

namespace Interval

def contains (i : Interval) (offset : Nat) : Bool := i.start ≤ offset && offset < i.stop

def isEmpty (i : Interval) : Bool := i.stop ≤ i.start

def size (i : Interval) : Nat := i.stop - i.start

/-- Adds an interval to sorted ones.  Those that it meets become one with it. -/
def insert (i : Interval) : List Interval → List Interval
  | [] => [i]
  | other :: rest =>
    if other.stop < i.start then other :: insert i rest
    else if other.start ≤ i.stop then
      insert ⟨min i.start other.start, max i.stop other.stop⟩ rest
    else i :: other :: rest

/-- The intervals of a sorted list that end after an offset. -/
def endingAfter (offset : Nat) : List Interval → List Interval
  | [] => []
  | all@(i :: rest) => if i.stop ≤ offset then endingAfter offset rest else all

end Interval

/-- Which run of free bytes is picked. -/
inductive Strategy where
  /-- The first one that has room. -/
  | firstFit
  /-- The shortest one that has room, the first of equal ones. -/
  | bestFit
  deriving Repr, DecidableEq, Inhabited

theorem alignment_lt (n : Nat) : n % 0x8000000000000000 < 0x8000000000000000 :=
  Nat.mod_lt n (by decide)

/-- A size as an alignment.  Configurations give no size of 2^63 or more. -/
def alignment (n : Nat) : Fin 0x8000000000000000 := ⟨n % 0x8000000000000000, alignment_lt n⟩

structure FreeSpacePolicy where
  /-- The byte that free space is filled with. -/
  byte : UInt8 := 0xFF
  /-- Where the search starts. -/
  start : Nat := 0
  /-- Shorter runs are not used. -/
  minRun : Nat := 0
  /-- Places are multiples of it. -/
  align : Fin 0x8000000000000000 := alignment 4
  strategy : Strategy := .firstFit
  /-- Whether the search starts over at the start of the image. -/
  wrap : Bool := true
  deriving Repr, DecidableEq, Inhabited

structure Allocator where
  image : Array UInt8
  policy : FreeSpacePolicy
  /-- What is not to be handed out. -/
  taken : List Interval := []
  deriving Repr, DecidableEq, Inhabited

namespace Allocator

/-- Marks bytes as taken. -/
def reserve (a : Allocator) (i : Interval) : Allocator :=
  if i.isEmpty then a else { a with taken := i.insert a.taken }

def isTaken (a : Allocator) (offset : Nat) : Bool := a.taken.any (·.contains offset)

/-- Whether a byte may be handed out. -/
def isFree (a : Allocator) (offset : Nat) : Bool :=
  a.image[offset]? == some a.policy.byte && !a.isTaken offset

/-- Whether a byte may be handed out, where `ahead` are the taken intervals that end after it: the
    first of them tells whether it is taken. -/
@[inline]
def isOpen (a : Allocator) (ahead : List Interval) (offset : Nat) : Bool :=
  match a.image[offset]? with
  | some byte => byte == a.policy.byte && !ahead.head?.any (·.start ≤ offset)
  | none => false

/-- The maximal runs of free bytes among `count` ones from `offset` on, where a run may have been
    opened before.  `ahead` holds the taken intervals that end after what has been passed. -/
def runs (a : Allocator) :
    (count offset : Nat) → (ahead : List Interval) → (opened : Option Nat) → List Interval
  | 0, offset, _, some start => [⟨start, offset⟩]
  | 0, _, _, none => []
  | count + 1, offset, ahead, opened =>
    let ahead := Interval.endingAfter offset ahead
    match opened with
    | some start =>
      if a.isOpen ahead offset then a.runs count (offset + 1) ahead opened
      else ⟨start, offset⟩ :: a.runs count (offset + 1) ahead none
    | none =>
      a.runs count (offset + 1) ahead (if a.isOpen ahead offset then some offset else none)

/-- The maximal runs of free bytes from an offset on. -/
def freeRuns (a : Allocator) (start : Nat) : List Interval :=
  a.runs (a.image.size - start) start a.taken none

/-- The least multiple that is not below a number. -/
def roundUp (n align : Nat) : Nat := (n + (align - 1)) / align * align

/-- The sum of an offset and a size as a word of 64 bits, which is all that comparisons see of it. -/
def wordAdd (offset size : Nat) : Nat := (offset + size) % UInt64.size

/-- The place that is looked at in a run: its first multiple of the alignment.  Offset 0 is not handed
    out: as an address it means nothing. -/
def firstPlace (policy : FreeSpacePolicy) (run : Interval) : Nat :=
  roundUp (max run.start 1) (max policy.align 1)

/-- Where bytes would go in a run, if the word that their end comes to is not past the run. -/
def fit? (policy : FreeSpacePolicy) (size : Nat) (run : Interval) : Option Nat :=
  let offset := firstPlace policy run
  if policy.minRun ≤ run.size ∧ wordAdd offset size ≤ run.stop then some offset else none

/-- The place in the shortest run, the lowest place for equal ones. -/
def best? : List (Nat × Nat) → Option (Nat × Nat)
  | [] => none
  | found :: rest =>
    match best? rest with
    | none => some found
    | some other =>
      if found.1 < other.1 ∨ found.1 = other.1 ∧ found.2 ≤ other.2 then some found else some other

/-- The place for bytes from an offset on. -/
def search? (a : Allocator) (start size : Nat) : Option Nat :=
  match a.policy.strategy with
  | .firstFit => (a.freeRuns start).findSome? (fit? a.policy size)
  | .bestFit =>
    (best? ((a.freeRuns start).filterMap fun run =>
      (fit? a.policy size run).map (run.size, ·))).map Prod.snd

/-- The place for bytes: from the start of the search on, else anywhere if the search wraps. -/
def place? (a : Allocator) (size : Nat) : Option Nat :=
  (a.search? a.policy.start size).or
    (if a.policy.wrap && 0 < a.policy.start then a.search? 0 size else none)

/-- Finds a place for bytes and takes it. -/
def allocate (a : Allocator) (size : Nat) : Except AssembleFault (UInt32 × Allocator) :=
  match a.place? size with
  | some offset => .ok (UInt32.ofNat offset, a.reserve ⟨offset, wordAdd offset size⟩)
  | none => .error (.freeSpaceExhausted size)

/-- Finds a place for data and takes it.  Nothing in memory has 2^63 bytes or more. -/
def allocateData (a : Allocator) (size : Nat) : Except AssembleFault (UInt32 × Allocator) :=
  if size < 0x8000000000000000 then a.allocate size else .error (.freeSpaceExhausted size)

end Allocator

end CartScript
