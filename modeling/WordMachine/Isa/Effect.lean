import WordMachine.Flags

/-!
# Effects

The effect of an instruction decides, from the flags, whether its result is stored. Copies and
computes differ in one case: `Effect.clear` asks a copy for a positive last result, and a compute
for a result of its own that did not overflow.
-/

namespace WordMachine

/-- The two classes of instruction. -/
inductive Class where
  | copy
  | compute
  deriving DecidableEq, Repr, Inhabited

/-- When the result of an instruction is stored. -/
inductive Effect where
  | ifZero
  | ifNotZero
  | clear
  | always
  deriving DecidableEq, Repr, Inhabited

namespace Effect

/-- The number of an effect. -/
def code : Effect → Nat
  | ifZero => 0
  | ifNotZero => 1
  | clear => 2
  | always => 3

/-- The effect with a number, where there is one. -/
def ofCode? : Nat → Option Effect
  | 0 => some ifZero
  | 1 => some ifNotZero
  | 2 => some clear
  | 3 => some always
  | _ => none

/-- The effect that the low two bits of a number select. -/
def ofBits (n : Nat) : Effect :=
  match n % 4 with
  | 0 => ifZero
  | 1 => ifNotZero
  | 2 => clear
  | _ => always

/-- The effect in its place within a word. -/
def encode (e : Effect) : Word := UInt16.ofNat e.code <<< 13

/-- The effect held in a word. -/
def decode (w : Word) : Effect := .ofBits ((w &&& 0x6000) >>> 13).toNat

/-- Whether the flags let the result be stored. -/
def commits (e : Effect) (c : Class) (f : Flags) : Bool :=
  match e, c with
  | ifZero, _ => f.zero
  | ifNotZero, _ => !f.zero
  | clear, .copy => !f.zero && !f.negative
  | clear, .compute => !f.overflow
  | always, _ => true

/-- The written form of an effect. -/
def text : Effect → List Char
  | ifZero => "0.eff".toList
  | ifNotZero => "1.eff".toList
  | clear => "2.eff".toList
  | always => "3.eff".toList

@[simp] theorem ofCode?_code (e : Effect) : ofCode? e.code = some e := by cases e <;> rfl

@[simp] theorem ofBits_code (e : Effect) : ofBits e.code = e := by cases e <;> rfl

theorem code_lt (e : Effect) : e.code < 4 := by cases e <;> decide

end Effect

end WordMachine
