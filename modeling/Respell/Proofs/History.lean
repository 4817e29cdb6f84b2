import Respell.Proofs.Canonicity

/-! Runs of requests to a store. A run is orderly when each request mentions only what the store
gave out before, or what no store gives out. Whether a run is orderly can be told request by request
(`orderly_type` and those beside it). -/
namespace Respell

open Store

inductive Request
  | text (text : String)
  | type (node : TypeNode)
  | name (node : NameNode)
  | typeList (types : List QualType)
  | nameList (names : List NameId)
  | signature (signature : Signature)
  deriving DecidableEq

inductive Given
  | atom (a : Atom)
  | type (t : TypeId)
  | name (n : NameId)
  | typeList (list : TypeListId)
  | nameList (list : NameListId)
  | signature (signature : SignatureId)
  deriving DecidableEq

namespace Request

def text? : Request → Option String
  | text x => some x
  | _ => none

def node? : Request → Option Node
  | text _ => none
  | type n => some (.type n)
  | name n => some (.name n)
  | typeList types => some (.typeList types)
  | nameList names => some (.nameList names)
  | signature f => some (.signature f)

def type? : Request → Option TypeNode
  | type n => some n
  | _ => none

def name? : Request → Option NameNode
  | name n => some n
  | _ => none

def serve : Request → Storing Given
  | text x => do
    let a ← internText x
    pure (.atom a)
  | type n => do
    let t ← internType n
    pure (.type t)
  | name n => do
    let n ← internName n
    pure (.name n)
  | typeList types => do
    let list ← internTypeList types
    pure (.typeList list)
  | nameList names => do
    let list ← internNameList names
    pure (.nameList list)
  | signature f => do
    let signature ← internSignature f
    pure (.signature signature)

/-- The request mentions only what the store gave out, or what no store gives out. -/
def Fits (s : Store) (r : Request) : Prop := ∀ n ∈ r.node?, s.Fits n

end Request

def serveAll : List Request → Storing (List Given)
  | [] => pure []
  | r :: rest => do
    let given ← r.serve
    let others ← serveAll rest
    pure (given :: others)

/-- Every request fits the store that it comes to. -/
def Orderly : List Request → Store → Prop
  | [], _ => True
  | r :: rest, s => r.Fits s ∧ Orderly rest (r.serve s).2

variable {s : Store}

theorem Request.fits_iff {r : Request} {n : Node} (node : r.node? = some n) :
    r.Fits s ↔ s.Fits n := by
  simp [Request.Fits, node]

@[simp] theorem orderly_nil : Orderly [] s := trivial

@[simp] theorem orderly_text {x : String} {rest : List Request} :
    Orderly (.text x :: rest) s ↔ Orderly rest (internText x s).2 := by
  have fits : (Request.text x).Fits s := by simp [Request.Fits, Request.node?]
  exact and_iff_right fits

@[simp] theorem orderly_type {n : TypeNode} {rest : List Request} :
    Orderly (.type n :: rest) s ↔ s.Fits (.type n) ∧ Orderly rest (internType n s).2 :=
  and_congr_left' (Request.fits_iff rfl)

@[simp] theorem orderly_name {n : NameNode} {rest : List Request} :
    Orderly (.name n :: rest) s ↔ s.Fits (.name n) ∧ Orderly rest (internName n s).2 :=
  and_congr_left' (Request.fits_iff rfl)

@[simp] theorem orderly_typeList {types : List QualType} {rest : List Request} :
    Orderly (.typeList types :: rest) s ↔
      s.Fits (.typeList types) ∧ Orderly rest (internTypeList types s).2 :=
  and_congr_left' (Request.fits_iff rfl)

end Respell
