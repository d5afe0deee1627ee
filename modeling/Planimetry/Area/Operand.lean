import Planimetry.Area.Simplification
import Planimetry.Area.Structure

/-! Operands of the area method: expressions, expanded forms, plain values, and trees over all of
these. Only trees of expressions alone are expressions. -/

namespace Planimetry.Area

/-- An expression, an expanded form, a plain value, or a tree with a leaf that is no expression. -/
inductive Operand where
  | expression (e : Expr)
  | expansion (s : Expansion)
  | scalar (value : Scalar)
  | joined (how : Operation) (left right : Operand)
  | negated (a : Operand)
  | marked (a : Operand) (point : Label)
  deriving DecidableEq

namespace Operand

/-- The tree that an operation joins from two operands. -/
def node (how : Operation) : Operand → Operand → Operand
  | .expression l, .expression r => .expression (how.node l r)
  | l, r => .joined how l r

/-- The tree that negates an operand. -/
def negate : Operand → Operand
  | .expression e => .expression (.neg e)
  | a => .negated a

/-- The tree that marks a point to eliminate from an operand. -/
def mark (point : Label) : Operand → Operand
  | .expression e => .expression (.elim e point)
  | a => .marked a point

def typeName : Operand → String
  | .expression e => e.nodeName
  | .expansion _ => Expansion.kindName
  | .scalar a => a.typeName
  | .joined how _ _ => how.kindName
  | .negated _ => (Expr.neg .zero).nodeName
  | .marked _ p => (Expr.elim .zero p).nodeName

def text : Operand → String
  | .expression e => e.text
  | .expansion s => s.text
  | .scalar a => a.text
  | .joined how l r => how.text l.text r.text
  | .negated a => Expr.negText a.text
  | .marked a p => Expr.markText a.text p

def structureText : Operand → String
  | .expression e => e.structureText
  | .expansion s => s.structureText
  | .scalar a => a.written
  | .joined how l r => how.structureText l.structureText r.structureText
  | .negated a => Expr.negStructure a.structureText
  | .marked a p => Expr.markStructure a.structureText p

/-- The expression that an operand is. -/
def expression? : Operand → Except Error Expr
  | .expression e => .ok e
  | .joined how l r => return how.node (← l.expression?) (← r.expression?)
  | .negated a => return .neg (← a.expression?)
  | .marked a p => return .elim (← a.expression?) p
  | a => .error (.notExpression a.typeName)

def isTree : Operand → Bool
  | .expansion _ | .scalar _ => false
  | _ => true

/-- The tree that stands for an operand next to a tree. -/
def toTree : Operand → Except OperandError Operand
  | .scalar (.number _ q) => .ok (.expression (.number q))
  | a => if a.isTree then .ok a else .error (.foreign "area-method expression" a.typeName)

/-- Builds a tree of two operands of which one is a tree; plain values combine as they do elsewhere. -/
def combine (how : Operation) : Operand → Operand → Except OperandError Operand
  | .scalar a, .scalar b => return .scalar (← how.onScalars a b)
  | a, b =>
    if a.isTree || b.isTree then return node how (← a.toTree) (← b.toTree)
    else .error (.unsupported how.symbol a.typeName b.typeName)

def neg : Operand → Except OperandError Operand
  | .expansion s => .ok (.expansion s.neg)
  | .scalar a => return .scalar (← a.neg)
  | a => .ok a.negate

def add : Operand → Operand → Except OperandError Operand
  | .expansion s, .expansion t => .ok (.expansion (s + t))
  | .expansion _, b => .error (.notExpanded b.typeName)
  | a, b => combine .add a b

def sub : Operand → Operand → Except OperandError Operand
  | .expansion s, .expansion t => .ok (.expansion (s.sub t))
  | .expansion _, b => do
    let c ← b.neg
    .error (.notExpanded c.typeName)
  | a, b => combine .sub a b

/-- Zero as an expanded form absorbs a factor of any kind. -/
def mul : Operand → Operand → Except OperandError Operand
  | .expansion s, .expansion t => .ok (.expansion (s.mul t))
  | .expansion s, b =>
    if s.isZero then .ok (.expansion 0) else .error (.notExpanded b.typeName)
  | a, b => combine .mul a b

/-- There is no quotient of expanded forms. -/
def div : Operand → Operand → Except OperandError Operand := combine .div

/-- Equality of trees, of expanded forms, or of plain values. -/
def equal : Operand → Operand → Bool
  | .scalar a, .scalar b => a.equal b
  | .joined f a b, .joined g c d => f == g && a.equal c && b.equal d
  | .negated a, .negated b => a.equal b
  | .marked a p, .marked b q => p == q && a.equal b
  | a, b => a == b

/-- Whether an operand is the number zero or the expanded form of it. -/
def isZero : Operand → Except Error Bool
  | .expression e => .ok e.isZero
  | .expansion s => .ok (Sparse.isZero s)
  | .scalar a => .error (.notExpression a.typeName)
  | _ => .ok false

/-- Whether an operand is the number one. -/
def isOne : Operand → Except Error Bool
  | .expression e => .ok e.isOne
  | .expansion _ => .error (.notExpression Expansion.kindName)
  | .scalar a => .error (.notExpression a.typeName)
  | _ => .ok false

/-- The labels in the quantities. -/
def labels : Operand → Except Error (List Label)
  | .expression e => .ok e.labels
  | .expansion s => .ok (Expansion.points s)
  | .scalar a => .error (.notExpression a.typeName)
  | .joined _ l r => return (← l.labels) ++ (← r.labels)
  | .negated a | .marked a _ => a.labels

/-- The points in the quantities, each once, in ascending order. -/
def points (a : Operand) : Except Error (List Label) :=
  return (← a.labels).eraseDups.mergeSort

/-- Renames points. A text has a replacement of its own, which takes no map of labels. -/
def relabel (f : Label → Label) : Operand → Except Error Expr
  | .expression e => .ok (e.relabel f)
  | .joined how l r => return how.node (← l.relabel f) (← r.relabel f)
  | .negated a => return .neg (← a.relabel f)
  | .marked a p => return .elim (← a.relabel f) (f p)
  | .scalar (.word _) => .error .textRelabeled
  | a => .error (.notExpression a.typeName)

/-- One pass of simplification; there are no rules for leaves other than expressions. -/
def simplifyOnce : Operand → Except Error Expr
  | .expression e => e.simplifyOnce
  | .joined how l r => do how.simplify (← l.simplifyOnce) (← r.simplifyOnce)
  | .negated a => return (← a.simplifyOnce).simplifyNeg
  | .marked a p => return .elim (← a.simplifyOnce) p
  | a => .error (.noRule a.typeName)

/-- Simplification with a limit on the passes; what is no expression has no size to report where the
limit allows no pass. -/
def simplify (limit : Int) : Operand → Except Error Expr
  | .expression e => return (← e.simplify limit).1
  | a => if 0 < limit then a.simplifyOnce else a.expression?

/-- Orients all quantities; other operands than expressions hold none. -/
def orient : Operand → Except Error Expr
  | .expression e => e.orient
  | .joined how l r => return how.node (← l.orient) (← r.orient)
  | .negated a => return .neg (← a.orient)
  | .marked a p => return .elim (← a.orient) p
  | a => .error (.notExpression a.typeName)

/-- The orientation of an operand that is a quantity. -/
def orientQuantity : Operand → Except Error Oriented
  | .expression (.atom q) => q.orient
  | a => .error (.notQuantity a.structureText)

/-- Expands a tree; leaves other than expressions have no expanded form. -/
def expand : Operand → Except Error Expansion
  | .expression e => e.expand
  | .joined .add l r => return (← l.expand) + (← r.expand)
  | .joined .sub l r => return (← l.expand).sub (← r.expand)
  | .joined .mul l r => return (← l.expand).mul (← r.expand)
  | .joined .div n d => do
    let s ← d.expand
    if !s.isConstant then .error (.openDenominator (← d.expression?))
    else if s.constantValue = 0 then .error (.vanishingDenominator (joined .div n d).text)
    else return (← n.expand).scale (1 / s.constantValue)
  | .negated a => return (← a.expand).neg
  | .marked _ p => .error (.pending p)
  | a => .error (.noNormalForm a.typeName)

/-- Rearranges an expression, and leaves other operands as they are. -/
def rearrange (f : Expr → Expr) : Operand → Operand
  | .expression e => .expression (f e)
  | a => a

/-- A product in which an absent factor stands for one. -/
def times (a : Operand) : Option Operand → Operand
  | none => a
  | some b => node .mul a b

/-- A product of two factors, each of which may be absent. -/
def timesOption : Option Operand → Option Operand → Option Operand
  | none, b => b
  | some a, b => some (a.times b)

/-- Whether two denominators, each of which may be absent, are the same. -/
def sameDenominator : Option Operand → Option Operand → Bool
  | none, none => true
  | some a, some b => a.equal b
  | _, _ => false

/-- Numerator and denominator; an absent denominator stands for one. -/
def split : Operand → Operand × Option Operand
  | .expression e => (.expression e.split.1, e.split.2.map .expression)
  | .joined .div n d =>
    let (nn, nd) := n.split
    let (dn, dd) := d.split
    (nn.times dd, timesOption nd (some dn))
  | .joined .mul l r =>
    let (n, c) := l.split
    let (m, d) := r.split
    (node .mul n m, timesOption c d)
  | .joined how l r =>
    let (n, c) := l.split
    let (m, d) := r.split
    if sameDenominator c d then (node how n m, c)
    else (node how (n.times d) (m.times c), timesOption c d)
  | .negated a =>
    let (n, d) := a.split
    (n.negate, d)
  | a => (a, none)

/-- The numerator of the single fraction, of which a plain value cannot be the whole denominator. -/
def numerator (a : Operand) : Except Error Operand :=
  match a.split with
  | (n, none) => .ok n
  | (n, some d) => do
    let _ ← d.isOne
    return n

/-- The expanded numerator. -/
def normalForm : Operand → Except Error Expansion
  | .expression e => e.normalForm
  | a => do ((← a.numerator).rearrange Expr.rightAssociative).expand

end Operand
end Planimetry.Area
