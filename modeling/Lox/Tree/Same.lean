import Lox.Tree

/-!
# Comparing trees

Two trees are the same if they have the same shape and the same tokens and literals at the same
places.  Literals are compared as values, so a tree with a number that is not a number differs from
itself.
-/

namespace Lox

def Expr.same : Expr → Expr → Bool
  | literal v, literal w => v.same w
  | grouping a, grouping b => a.same b
  | unary s a, unary t b => s.same t && a.same b
  | binary a s b, binary c t d => a.same c && s.same t && b.same d
  | var s, var t => s.same t
  | assign s a, assign t b => s.same t && a.same b
  | _, _ => false

namespace Stmt

mutual

def same : Stmt → Stmt → Bool
  | expression a, expression b => a.same b
  | print a, print b => a.same b
  | varDecl s none, varDecl t none => s.same t
  | varDecl s (some a), varDecl t (some b) => s.same t && a.same b
  | block ss, block ts => allSame ss ts
  | _, _ => false

def allSame : List Stmt → List Stmt → Bool
  | [], [] => true
  | s :: ss, t :: ts => s.same t && allSame ss ts
  | _, _ => false

end

end Stmt

end Lox
