import Secd.Keyword

/-!
# Binders

A frame binds the names of a list of distinct symbols, none of them `NIL` or a keyword.
-/

namespace Secd

/-- Why a list cannot be bound. -/
inductive BinderFault where
  | improper (ending : Kind)
  | nil
  | notASymbol (found : Kind)
  | reserved (name : String)
  | duplicate (name : String)
deriving DecidableEq, Repr

/-- The message for each fault. -/
def BinderFault.message : BinderFault → String
  | .improper ending => "binder list: " ++ (ValueError.improperList ending).message
  | .nil => "NIL cannot be bound"
  | .notASymbol found => "binder must be a symbol, found " ++ found.text
  | .reserved name => "keyword " ++ name ++ " cannot be bound"
  | .duplicate name => "duplicate binder " ++ name

namespace Binder

/-- The name that an item of a binder list binds, given the names bound before it. -/
def name (earlier : List String) : Sexp → Except BinderFault String
  | .symbol name =>
    if Keyword.isReserved name then .error (.reserved name)
    else if name ∈ earlier then .error (.duplicate name)
    else .ok name
  | .nil => .error .nil
  | e => .error (.notASymbol e.kind)

/-- The names that the items of a binder list bind, given the names bound before them. -/
def namesFrom (earlier : List String) : List Sexp → Except BinderFault (List String)
  | [] => .ok []
  | item :: items => do
    let first ← name earlier item
    let others ← namesFrom (first :: earlier) items
    .ok (first :: others)

/-- The names that a list of items binds. -/
def names (items : List Sexp) : Except BinderFault (List String) :=
  namesFrom [] items

/-- The names that a binder list binds. How the list ends is looked at last. -/
def ofList (list : Sexp) : Except BinderFault (List String) :=
  match list.items with
  | (items, ending) => do
    let bound ← names (items.map Prod.snd)
    match ending with
    | .nil => .ok bound
    | ending => .error (.improper ending.kind)

end Binder

end Secd
