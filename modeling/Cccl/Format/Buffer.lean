/-
# Output buffers of `format`

A formatter writes into a buffer, one character or many at a time.  What happens if there is no room
depends on the kind of the buffer: it grows, it hands its characters on to a container and starts
again, or it pretends that there is always room.

`push_back` makes room behind itself and not in front: it relies on one free place.  A bulk write
goes in pieces and leaves the last piece as it is.
-/
import Cccl.Cmath.Ilog10

namespace Cccl.Format

/-! ## 1. The limit -/

/-- `__fmt_max_output_size`. -/
structure MaxOutputSize where
  maxSize : ℕ
  codeUnitsWritten : ℕ

/-- `__write_request`: how many of the characters may be written. -/
def MaxOutputSize.writeRequest (codeUnits : ℕ) (l : MaxOutputSize) : ℕ × MaxOutputSize :=
  (if l.codeUnitsWritten < l.maxSize then min codeUnits (l.maxSize - l.codeUnitsWritten) else 0,
    { l with codeUnitsWritten := (l.codeUnitsWritten + codeUnits) % 2 ^ 64 })

/-! ## 2. The buffer -/

inductive Kind
  | allocating
  | directIterator
  | containerInserter
  | iterator
  deriving DecidableEq

/-- `__fmt_output_buffer`: the characters in the buffer, and those that were handed on to the
container before. -/
structure OutputBuffer (γ : Type) where
  kind : Kind
  capacity : ℕ
  contents : List γ
  container : List γ
  limit : Option MaxOutputSize

variable {ι γ : Type}

namespace OutputBuffer

def size (b : OutputBuffer γ) : ℕ := b.contents.length

def available (b : OutputBuffer γ) : ℕ := b.capacity - b.size

/-- The capacity times `1.6` in double precision, which is `7205759403792794 / 2 ^ 52`. -/
def scaled (capacity : ℕ) : ℕ :=
  Cmath.roundDigits 53 (Cmath.roundDigits 53 capacity * 7205759403792794) >>> 52

/-- `__grow_buffer`: `none` is a failed assertion. -/
def growBuffer (capacity : ℕ) (b : OutputBuffer γ) : Option (OutputBuffer γ) :=
  if capacity < 256 then some b
  else if b.capacity < capacity then some { b with capacity := capacity }
  else none

/-- The callback of a kind: it grows, throws, or hands on. -/
def prepareWriteOf (sizeHint : ℕ) (b : OutputBuffer γ) : Option (OutputBuffer γ) :=
  match b.kind with
  | .allocating | .iterator => b.growBuffer (max (b.capacity + sizeHint) (scaled b.capacity))
  | .directIterator => none
  | .containerInserter => some { b with container := b.container ++ b.contents, contents := [] }

def prepareWrite (codeUnits : ℕ) (b : OutputBuffer γ) : Option (OutputBuffer γ) :=
  if b.available < codeUnits + 1 then b.prepareWriteOf (codeUnits + 1 + 1) else some b

/-- Stores behind the last character: `none` is a store outside of the buffer. -/
def store (data : List γ) (b : OutputBuffer γ) : Option (OutputBuffer γ) :=
  if b.size + data.length ≤ b.capacity then some { b with contents := b.contents ++ data } else none

/-- `push_back`, behind the limit. -/
def push (c : γ) (b : OutputBuffer γ) : Option (OutputBuffer γ) :=
  (b.store [c]).bind fun b => if b.size = b.capacity then b.prepareWrite 0 else some b

/-- The loop of a bulk write.  A round that has no room at all would be repeated for ever. -/
def bulkLoop : ℕ → List γ → OutputBuffer γ → Option (OutputBuffer γ)
  | 0, _, _ => none
  | fuel + 1, data, b =>
    (b.prepareWrite data.length).bind fun b =>
      let chunk := min data.length b.available
      (b.store (data.take chunk)).bind fun b =>
        if data.drop chunk = [] then some b else bulkLoop fuel (data.drop chunk) b

/-- A bulk write, behind the limit. -/
def bulk (data : List γ) (b : OutputBuffer γ) : Option (OutputBuffer γ) :=
  bulkLoop (data.length + 1) data b

/-- With a limit, a write is cut; if nothing is left of it then only the limit counts it. -/
def request (codeUnits : ℕ) (write : ℕ → OutputBuffer γ → Option (OutputBuffer γ))
    (b : OutputBuffer γ) : Option (OutputBuffer γ) :=
  match b.limit with
  | none => write codeUnits b
  | some l =>
    let r := l.writeRequest codeUnits
    if r.1 = 0 then some { b with limit := some r.2 } else write r.1 { b with limit := some r.2 }

def pushBack (c : γ) : OutputBuffer γ → Option (OutputBuffer γ) := request 1 fun _ => push c

/-- `__copy`, with a conversion of the characters. -/
def copy (convert : ι → γ) (str : List ι) : OutputBuffer γ → Option (OutputBuffer γ) :=
  request str.length fun n => bulk ((str.take n).map convert)

def transform (data : List ι) (operation : ι → γ) : OutputBuffer γ → Option (OutputBuffer γ) :=
  request data.length fun n => bulk ((data.take n).map operation)

def fill (n : ℕ) (value : γ) : OutputBuffer γ → Option (OutputBuffer γ) :=
  request n fun n => bulk (List.replicate n value)

/-! ## 3. Construction and result -/

/-- A buffer as the constructor of its kind makes it. -/
def create (kind : Kind) (limit : Option MaxOutputSize) : OutputBuffer γ :=
  { kind := kind
    capacity := match kind with
      | .directIterator => 2 ^ 64 - 1
      | _ => 256
    contents := []
    container := []
    limit := limit }

/-- The limit of `format_to_n`: a negative number is none at all. -/
def ofDifference (n : ℤ) : MaxOutputSize := { maxSize := n.toNat, codeUnitsWritten := 0 }

/-- What reaches the output: the view of the allocated characters, the characters behind the
iterator, or the container with what is still in the buffer. -/
def output (b : OutputBuffer γ) : List γ :=
  match b.kind with
  | .containerInserter => b.container ++ b.contents
  | _ => b.contents

/-- The size that `format_to_n` returns, of a signed type. -/
def reportedSize (b : OutputBuffer γ) : Option ℤ :=
  b.limit.map fun l => Int.bmod l.codeUnitsWritten (2 ^ 64)

end OutputBuffer

/-! ## 4. Runs -/

inductive Op (ι γ : Type)
  | pushBack (c : γ)
  | copy (str : List ι)
  | transform (data : List ι) (operation : ι → γ)
  | fill (n : ℕ) (value : γ)

namespace Op

/-- The characters that an operation asks for. -/
def text (convert : ι → γ) : Op ι γ → List γ
  | .pushBack c => [c]
  | .copy str => str.map convert
  | .transform data operation => data.map operation
  | .fill n value => List.replicate n value

def run (convert : ι → γ) : Op ι γ → OutputBuffer γ → Option (OutputBuffer γ)
  | .pushBack c => OutputBuffer.pushBack c
  | .copy str => OutputBuffer.copy convert str
  | .transform data operation => OutputBuffer.transform data operation
  | .fill n value => OutputBuffer.fill n value

end Op

/-- A run of operations. -/
def runOps (convert : ι → γ) : List (Op ι γ) → OutputBuffer γ → Option (OutputBuffer γ)
  | [], b => some b
  | op :: ops, b => (op.run convert b).bind (runOps convert ops)

end Cccl.Format
