/-!
# Memory

Whoever decodes instructions asks a byte source for runs of bytes. A
`ByteSource` is any function that answers such questions; it need not be
consistent, and it may refuse. A `Region` is a source with bytes from a base
address on, and addresses wrap modulo 2^32.

A computation that depends on a source is a `Reading`: a tree of questions. What
it computes (`Reading.run`) and what it asks (`Reading.requests`) are two ways to
look at one tree.
-/

namespace Stm8

/-! ## Sources -/

/-- Answers for a run of `n` bytes from an address on. -/
abbrev ByteSource := UInt32 → (n : Nat) → Option (Vector UInt8 n)

/-- A source that asks the given ones in turn. -/
def ByteSource.firstOf (sources : List ByteSource) : ByteSource := fun address n =>
  sources.findSome? fun source => source address n

/-- Bytes in memory. -/
structure Region where
  /-- The address of the first byte. -/
  base : UInt32
  /-- The bytes. -/
  bytes : List UInt8
  deriving DecidableEq, Repr, Inhabited

namespace Region

/-- The address behind the last byte, which may be beyond the largest one. -/
def limit (r : Region) : Nat :=
  r.base.toNat + r.bytes.length

/-- Answers for runs that lie in the region. -/
def source (r : Region) : ByteSource := fun address n =>
  let run := (r.bytes.drop (address - r.base).toNat).take n
  if h : run.length = n then some ⟨run.toArray, by simpa using h⟩ else none

end Region

/-! ## Readings -/

/-- A run of bytes that is asked for. -/
structure Request where
  /-- The address of the first byte. -/
  address : UInt32
  /-- The number of bytes. -/
  length : Nat
  deriving DecidableEq, Repr, Inhabited

/-- A computation that asks for bytes on its way. -/
inductive Reading (α : Type) where
  /-- The result. -/
  | done (result : α)
  /-- Asks for `n` bytes and goes on with them. -/
  | fetch (address : UInt32) (n : Nat) (next : Vector UInt8 n → Reading α)

namespace Reading

/-- The result with the answers of `source`, or the first request that it
refused. -/
def run {α : Type} (source : ByteSource) : Reading α → Except Request α
  | done result => .ok result
  | fetch address n next =>
    match source address n with
    | some bytes => (next bytes).run source
    | none => .error ⟨address, n⟩

/-- The requests in order, each with whether it was answered. Nothing is asked
after a refusal. -/
def requests {α : Type} (source : ByteSource) : Reading α → List (Request × Bool)
  | done _ => []
  | fetch address n next =>
    match source address n with
    | some bytes => (⟨address, n⟩, true) :: (next bytes).requests source
    | none => [(⟨address, n⟩, false)]

/-- A result does not depend on more than the answers: two sources that agree on
the requests of the first lead to the same result. -/
theorem run_congr {α : Type} {s t : ByteSource} (r : Reading α)
    (h : ∀ q ∈ r.requests s, s q.1.address q.1.length = t q.1.address q.1.length) :
    r.run s = r.run t := by
  induction r with
  | done => rfl
  | fetch address n next ih =>
    cases hs : s address n with
    | none =>
      have ht : t address n = none := by
        rw [← h (⟨address, n⟩, false) (by simp [requests, hs]), hs]
      simp [run, hs, ht]
    | some bytes =>
      have ht : t address n = some bytes := by
        rw [← h (⟨address, n⟩, true) (by simp [requests, hs]), hs]
      simp only [run, hs, ht]
      exact ih bytes fun q hq => h q (by simp [requests, hs, hq])

end Reading

end Stm8
