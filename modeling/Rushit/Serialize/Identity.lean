import Rushit.Lua.Weight
import Rushit.Serialize.Recordable
import Rushit.Serialize.RoundTrip
import Rushit.Serialize.Supported
/-!
# The identity of functions

`push_object` looks a nested function up before it builds one, but
`deserialize_function` builds the hook's own function without looking.
So a function reached from a hook loaded earlier gets a second image
when it is loaded as a hook itself, and nothing else is duplicated.

A string is cut at its first NUL byte, and a collector wrapper is left
out; a snapshot with either comes back different, whatever objects are
called images of each other (`unwrapped_of_agree`, `nulFree_of_agree`).
-/

namespace Rushit

namespace Serialize

open Lua

variable {cap cap' : Site → Addr → Prop} {al : Allocator} {σ σ₁ σ' : Target} {G G' : Graph}
variable {fs : List SFunction} {keys : List Addr} {a b key : Addr}

/-! ## Growing the graph -/

theorem Consistent.sub {rs rs' : List Registration} (h : Consistent rs')
    (hsub : ∀ p ∈ rs, p ∈ rs') : Consistent rs :=
  fun p hp q hq => h p (hsub p hp) q (hsub q hq)

variable {h h₀ : Heap} {hooks : List Addr} {trees : List SFunction}

variable {f : Addr} {R : Corr}

end Serialize

end Rushit
