/-
# The calls of the CUDA runtime

Every call of the runtime succeeds or fails as the runtime likes; what it answers may depend on everything that
happened before.  The allocator and its users only see these answers.  So a runtime is a function from the calls so
far, and the one promise is that `cudaMalloc` returns pointers that are not null and not in use (`Runtime.address`).
-/
import Mathlib.Data.Finset.Insert
import Mathlib.Data.Finset.Erase
import Mathlib.Data.List.Chain

namespace Cccl.CachingAllocator

/-! ## 1. Calls and their history -/

/-- `cudaError_t`: the errors that the allocator looks at, and all others by their codes. -/
inductive CudaError
  | success
  | memoryAllocation
  | notReady
  | other (code : ℕ)
  deriving DecidableEq

/-- A call of the runtime, with its arguments and what it returned.  A null pointer, event or stream is 0. -/
inductive RuntimeCall
  | getDevice (device : ℤ) (error : CudaError)
  | setDevice (device : ℤ) (error : CudaError)
  | malloc (dPtr : ℕ) (bytes : BitVec 64) (error : CudaError)
  | free (dPtr : ℕ) (error : CudaError)
  | eventCreate (event : ℕ) (error : CudaError)
  | eventRecord (event stream : ℕ) (error : CudaError)
  | eventQuery (event : ℕ) (error : CudaError)
  | eventDestroy (event : ℕ) (error : CudaError)
  deriving DecidableEq

/-- The calls so far, the last one first. -/
abbrev History := List RuntimeCall

/-- The pointers in use: those that `cudaMalloc` has returned and `cudaFree` has not taken back. -/
def allocated : History → Finset ℕ
  | [] => ∅
  | .malloc dPtr _ .success :: h => insert dPtr (allocated h)
  | .free dPtr .success :: h => (allocated h).erase dPtr
  | _ :: h => allocated h

/-- The pointers that `cudaFree` has taken back and `cudaMalloc` has not returned again. -/
def freed : History → Finset ℕ
  | [] => ∅
  | .malloc dPtr _ .success :: h => (freed h).erase dPtr
  | .free dPtr .success :: h => insert dPtr (freed h)
  | _ :: h => freed h

/-- The pointers that `cudaMalloc` has ever returned. -/
def obtained : History → Finset ℕ
  | [] => ∅
  | .malloc dPtr _ .success :: h => insert dPtr (obtained h)
  | _ :: h => obtained h

/-- No pointer is given to `cudaFree` after it has been taken back. -/
def FreedOnce : History → Prop
  | [] => True
  | .free dPtr _ :: h => dPtr ∉ freed h ∧ FreedOnce h
  | _ :: h => FreedOnce h

/-- What the runtime answers next. -/
structure Runtime where
  error : History → CudaError
  device : History → ℤ
  address (h : History) : {dPtr : ℕ // dPtr ≠ 0 ∧ dPtr ∉ allocated h}
  event : History → ℕ

namespace RuntimeCall

/-- A call that neither gives memory nor is asked to take memory back. -/
def Quiet : RuntimeCall → Prop
  | malloc _ _ error => error ≠ .success
  | free _ _ => False
  | _ => True

/-- An error after which a call of the allocator ends early. -/
def failed : RuntimeCall → Bool
  | setDevice _ error => error ≠ .success
  | free _ error => error ≠ .success
  | eventDestroy _ error => error ≠ .success
  | _ => false

/-! Three pairs of calls in a row. -/

/-- No memory, but an event for it. -/
def phantom : (later earlier : RuntimeCall) → Bool
  | eventCreate _ .success, malloc _ _ error => error ≠ .success
  | _, _ => false

/-- The memory is freed, but not the event. -/
def halfFreed : (later earlier : RuntimeCall) → Bool
  | eventDestroy _ error, free _ .success => error ≠ .success
  | _, _ => false

/-- An error, and then a device that is set with success. -/
def overwritten : (later earlier : RuntimeCall) → Bool
  | setDevice _ .success, c => c.failed
  | _, _ => false

end RuntimeCall

section

variable {c : RuntimeCall} {h : History}

theorem allocated_quiet (hc : c.Quiet) : allocated (c :: h) = allocated h := by
  cases c with
  | malloc _ _ error =>
    cases error with
    | success => exact absurd rfl hc
    | _ => rfl
  | free _ _ => exact hc.elim
  | _ => rfl

theorem freed_quiet (hc : c.Quiet) : freed (c :: h) = freed h := by
  cases c with
  | malloc _ _ error =>
    cases error with
    | success => exact absurd rfl hc
    | _ => rfl
  | free _ _ => exact hc.elim
  | _ => rfl

theorem freedOnce_quiet (hc : c.Quiet) : FreedOnce (c :: h) ↔ FreedOnce h := by
  cases c with
  | free _ _ => exact hc.elim
  | _ => exact Iff.rfl

theorem obtained_subset : obtained h ⊆ obtained (c :: h) := by
  cases c with
  | malloc dPtr _ error =>
    cases error with
    | success => exact Finset.subset_insert dPtr _
    | _ => exact Finset.Subset.refl _
  | _ => exact Finset.Subset.refl _

/-- A `cudaFree` that fails. -/
theorem allocated_free_of_ne {dPtr : ℕ} {error : CudaError} (he : error ≠ .success) :
    allocated (.free dPtr error :: h) = allocated h := by
  cases error with
  | success => exact absurd rfl he
  | _ => rfl

end

/-- **A pointer in use has not been taken back**, and it is not null. -/
theorem allocated_disjoint_freed {h : History} {dPtr : ℕ} (ha : dPtr ∈ allocated h) : dPtr ∉ freed h := by
  induction h with
  | nil => exact absurd ha (Finset.notMem_empty _)
  | cons c h ih =>
    cases c with
    | malloc d _ error =>
      cases error with
      | success =>
        intro hf
        have hne := Finset.ne_of_mem_erase hf
        exact ih ((Finset.mem_insert.mp ha).resolve_left hne) (Finset.mem_of_mem_erase hf)
      | _ => exact ih ha
    | free d error =>
      cases error with
      | success =>
        intro hf
        have hne := Finset.ne_of_mem_erase ha
        exact ih (Finset.mem_of_mem_erase ha) ((Finset.mem_insert.mp hf).resolve_left hne)
      | _ => exact ih ha
    | _ => exact ih ha

end Cccl.CachingAllocator
