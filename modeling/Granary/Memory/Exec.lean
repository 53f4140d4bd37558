import Granary.Memory.Bump
import Granary.Memory.Heap

/-!
# The executable region

`granary/allocator.cc`: `init_code_cache`, `global_allocate_executable` and the address predicates. The code cache grows
up from the start of the region and generated code grows down towards it. A call updates its pointer, reads its limit
and checks it in three steps, between which the other CPUs run, and then fills the memory. `uintptr_t` arithmetic is modulo
`2 ^ 64`.
-/

namespace Granary.Memory

open Ranges

/-! ## Layout -/

def codeCacheSize : Nat := 100 * oneMB

def fragmentCacheMaxSize : Nat := codeCacheSize - oneMB

def fragmentSlabSize : Nat := fragmentAllocatorConfig.slabSize

def maxNumFragmentSlabs : Nat := fragmentCacheMaxSize / fragmentSlabSize

/-- The array `EXECUTABLE_AREA` of pages, somewhere in the address space, and the ranges of memory that can be written. -/
structure ExecRegion where
  start : Nat
  writable : (mem size : Nat) → Bool
  aligned : pageSize ∣ start
  fits : start + codeCacheSize < 2 ^ 64
  writable_area : ∀ mem size, start ≤ mem → mem + size ≤ start + codeCacheSize → writable mem size = true

namespace ExecRegion

def execEnd (r : ExecRegion) : Nat := r.start + codeCacheSize

def wrapperStart (r : ExecRegion) : Nat := r.execEnd - oneMB

def findFragmentSlab (r : ExecRegion) (fragmentAddr : Nat) : Nat :=
  (fragmentAddr + 2 ^ 64 - r.start) % 2 ^ 64 / fragmentSlabSize % 2 ^ 32

end ExecRegion

/-! ## CPUs -/

structure ExecBlock where
  kind : ExecutableMemoryKind
  mem : Nat
  size : Nat
deriving DecidableEq, Repr

inductive ExecPc where
  | idle
  /-- the pointer is updated, the limit is to be read -/
  | limit (b : ExecBlock)
  /-- the limit is to be checked -/
  | check (b : ExecBlock) (limit : Nat)
  /-- `granary_fault` or a fault of `memset`, from which a call does not return -/
  | faulted
deriving DecidableEq, Repr

/-- The pointers, the CPUs, and what was returned, each with the limit that it was checked against. -/
structure ExecState (n : Nat) where
  codeCacheEnd : Nat
  genCodeStart : Nat
  wrapperEnd : Nat
  pc : Fin n → ExecPc
  returned : List (ExecBlock × Nat)

/-- A request for memory: some bytes, and not more than the region has. -/
structure ExecRequest where
  size : Nat
  pos : 0 < size
  le : size ≤ codeCacheSize

/-- A CPU calls `global_allocate_executable`, or runs on. Any other value of `where` than the three kinds is `none`. -/
inductive ExecEvent (n : Nat) where
  | call (t : Fin n) (request : ExecRequest) (kind : Option ExecutableMemoryKind)
  | run (t : Fin n)

def ExecState.init (n : Nat) (r : ExecRegion) : ExecState n :=
  { codeCacheEnd := r.start, genCodeStart := r.wrapperStart, wrapperEnd := r.wrapperStart, pc := fun _ => .idle,
    returned := [] }

namespace ExecState

variable {n : Nat}

def setPc (s : ExecState n) (t : Fin n) (p : ExecPc) : ExecState n := { s with pc := Function.update s.pc t p }

/-- `__sync_fetch_and_add` on the end of the code cache or the wrappers, `__sync_sub_and_fetch` on the start of
generated code. -/
def update (s : ExecState n) (t : Fin n) (size : Nat) : ExecutableMemoryKind → ExecState n
  | .codeCache =>
    { s.setPc t (.limit ⟨.codeCache, s.codeCacheEnd, size⟩) with
      codeCacheEnd := (s.codeCacheEnd + size) % 2 ^ 64 }
  | .genCode =>
    { s.setPc t (.limit ⟨.genCode, (s.genCodeStart + 2 ^ 64 - size) % 2 ^ 64, size⟩) with
      genCodeStart := (s.genCodeStart + 2 ^ 64 - size) % 2 ^ 64 }
  | .wrapper =>
    { s.setPc t (.limit ⟨.wrapper, s.wrapperEnd, size⟩) with
      wrapperEnd := (s.wrapperEnd + size) % 2 ^ 64 }

def limitOf (s : ExecState n) (r : ExecRegion) : ExecutableMemoryKind → Nat
  | .codeCache => s.genCodeStart
  | .genCode => s.codeCacheEnd
  | .wrapper => r.execEnd

end ExecState

def ExecBlock.exceeds (b : ExecBlock) (limit : Nat) : Bool :=
  match b.kind with
  | .codeCache => (b.mem + b.size) % 2 ^ 64 > limit
  | .genCode => b.mem < limit
  | .wrapper => (b.mem + b.size) % 2 ^ 64 > limit

def ExecState.step {n : Nat} (s : ExecState n) (r : ExecRegion) : ExecEvent n → Option (ExecState n)
  | .call t request kind =>
    match s.pc t, kind with
    | .idle, some kind => some (s.update t request.size kind)
    | .idle, none => some (s.setPc t .faulted)
    | _, _ => none
  | .run t =>
    match s.pc t with
    | .limit b => some (s.setPc t (.check b (s.limitOf r b.kind)))
    | .check b limit =>
      if b.exceeds limit then some (s.setPc t .faulted)
      else if r.writable b.mem b.size then some { s.setPc t .idle with returned := (b, limit) :: s.returned }
      else some (s.setPc t .faulted)
    | _ => none

def ExecState.runExec {n : Nat} (r : ExecRegion) : List (ExecEvent n) → ExecState n → Option (ExecState n)
  | [], s => some s
  | e :: es, s => (s.step r e).bind (runExec r es)

/-! ## Address predicates -/

namespace ExecState

variable {n : Nat}

def isCodeCacheAddress (s : ExecState n) (r : ExecRegion) (addr : Nat) : Bool :=
  r.start ≤ addr ∧ addr < s.codeCacheEnd

def isWrapperAddress (s : ExecState n) (r : ExecRegion) (addr : Nat) : Bool :=
  r.wrapperStart ≤ addr ∧ addr < s.wrapperEnd

def isGencodeAddress (s : ExecState n) (r : ExecRegion) (addr : Nat) : Bool :=
  s.genCodeStart ≤ addr ∧ addr < r.wrapperStart

def isAddress (s : ExecState n) (r : ExecRegion) : ExecutableMemoryKind → Nat → Bool
  | .codeCache => s.isCodeCacheAddress r
  | .genCode => s.isGencodeAddress r
  | .wrapper => s.isWrapperAddress r

end ExecState

/-! ## Safety -/

/-- What was returned is disjoint and inside the region, and each code-cache address has a fragment slab. -/
structure ExecState.Safe {n : Nat} (s : ExecState n) (r : ExecRegion) : Prop where
  disjoint : s.returned.Pairwise fun x y => Apart x.1.mem x.1.size y.1.mem y.1.size
  inside : ∀ x ∈ s.returned, r.start ≤ x.1.mem ∧ x.1.mem + x.1.size ≤ r.execEnd
  slab : ∀ x ∈ s.returned, x.1.kind = .codeCache →
    ∀ a, x.1.mem ≤ a → a < x.1.mem + x.1.size → r.findFragmentSlab a < maxNumFragmentSlabs

/-- Each byte of what was returned satisfies the predicate for its kind and no other. -/
def ExecState.Classified {n : Nat} (s : ExecState n) (r : ExecRegion) : Prop :=
  ∀ x ∈ s.returned, ∀ a, x.1.mem ≤ a → a < x.1.mem + x.1.size → ∀ k, s.isAddress r k a = true ↔ k = x.1.kind

/-- The pointer update of a call does not wrap around the address space. -/
def ExecEvent.NoWrap {n : Nat} (s : ExecState n) : ExecEvent n → Prop
  | .call _ request (some .codeCache) => s.codeCacheEnd + request.size < 2 ^ 64
  | .call _ request (some .genCode) => request.size ≤ s.genCodeStart
  | .call _ request (some .wrapper) => s.wrapperEnd + request.size < 2 ^ 64
  | _ => True

instance {n : Nat} (s : ExecState n) : (e : ExecEvent n) → Decidable (e.NoWrap s)
  | .call _ request (some .codeCache) => inferInstanceAs (Decidable (s.codeCacheEnd + request.size < 2 ^ 64))
  | .call _ request (some .genCode) => inferInstanceAs (Decidable (request.size ≤ s.genCodeStart))
  | .call _ request (some .wrapper) => inferInstanceAs (Decidable (s.wrapperEnd + request.size < 2 ^ 64))
  | .call _ _ none | .run _ => inferInstanceAs (Decidable True)

inductive ExecRun {n : Nat} (r : ExecRegion) (s : ExecState n) : ExecState n → Prop where
  | refl : ExecRun r s s
  | step {s₁ s₂} (e : ExecEvent n) : ExecRun r s s₁ → e.NoWrap s₁ → s₁.step r e = some s₂ → ExecRun r s s₂

end Granary.Memory
