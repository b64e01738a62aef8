import BiosKernel.Lib.Checked

set_option autoImplicit true

/-- Monads with an allocator. The chunks that it hands out are known by numbers. -/
class Allocator (m : Type → Type) where
  alloc : m Nat
  release : Nat → m Unit

namespace Allocator
open Checked

/-- Where only the result counts, there is nothing to keep of a chunk. This is the monad that is
meant where none is named. -/
@[default_instance]
instance : Allocator Result where
  alloc := .ok 0
  release _ := .ok ()

@[simp] theorem alloc_bind (f : Nat → Result α) : (alloc >>= f) = f 0 := rfl

end Allocator
