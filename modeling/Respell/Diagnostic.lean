import Respell.Message
import Respell.Node

/-!
Diagnostics of a rewrite. Rewriting never fails, but a type of an opaque shape passes through as it
is, and that is reported.
-/
namespace Respell

structure Diagnostic where
  code : Nat
  category : Category
  type : TypeId
  shape : OpaqueShape
  text : String
  deriving DecidableEq, Repr

namespace Diagnostic

def unsupportedShape (type : TypeId) (shape : OpaqueShape) : Diagnostic where
  code := Message.unsupportedShape.code
  category := Message.unsupportedShape.category
  type := type
  shape := shape
  text := Message.fill Message.unsupportedShape.template [shape.label]

end Diagnostic

structure Collector where
  diagnostics : List Diagnostic := []
  deriving DecidableEq, Repr

namespace Collector

def empty : Collector := {}

instance : Inhabited Collector := ⟨empty⟩

def size (c : Collector) : Nat := c.diagnostics.length

def isEmpty (c : Collector) : Bool := c.diagnostics.isEmpty

def report (c : Collector) (more : List Diagnostic) : Collector := ⟨c.diagnostics ++ more⟩

def take (c : Collector) : List Diagnostic × Collector := (c.diagnostics, empty)

end Collector
end Respell
