import PolishPseudocode.Expr

/-! Programs as lists of statements. A block is a list of statements too; what a reader produces has
no empty blocks. -/

namespace PolishPseudocode

inductive Target where
  | var (name : Name)
  | element (name : Name) (index : Expr)
deriving Repr

/-- A statement. Compound statements keep the place of their keyword, a call that of its `(`. -/
inductive Statement where
  | assign (target : Target) (value : Expr)
  | call (callee : Name) (arguments : List Expr) (position : Position)
  | whileLoop (condition : Expr) (body : List Statement) (position : Position)
  | forLoop (counter : Name) (start second last : Expr) (body : List Statement)
      (position : Position)
  | branch (condition : Expr) (body : List Statement) (otherwise : Option (List Statement))
      (position : Position)
  | function (name : Name) (parameters : List Name) (body : List Statement) (position : Position)
  | giveBack (value : Option Expr) (position : Position)
  | print (value : Expr) (position : Position)
deriving Repr

/-- The statements of one level of indentation. -/
abbrev Block :=
  List Statement

abbrev Program :=
  List Statement

end PolishPseudocode
