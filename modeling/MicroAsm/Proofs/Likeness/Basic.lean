import Mathlib.Data.List.Forall2
import MicroAsm.Assembly.Program
import MicroAsm.Proofs.Outcome

/-!
# Texts that are alike

Two texts are alike if their tokens are, one for one: of the same kind and value, at places that
stand for each other. Names may differ in the case of their letters. A likeness says which places
stand for each other and whether names are spelled the same; everything that is made of tokens is
alike if it is made of like tokens in the same way.
-/

namespace Option.Rel

variable {α β : Type} {R : α → β → Prop} {x : Option α} {y : Option β}

lemma of_none (h : Option.Rel R x y) (hx : x = .none) : y = .none := by
  cases h with
  | none => rfl
  | some h => cases hx

lemma of_some {a : α} (h : Option.Rel R x y) (hx : x = .some a) : ∃ b : β, y = .some b ∧ R a b := by
  cases h with
  | none => cases hx
  | some h =>
    cases hx
    exact ⟨_, rfl, h⟩

lemma map {α' β' : Type} {S : α' → β' → Prop} {f : α → α'} {g : β → β'} (h : Option.Rel R x y)
    (hf : ∀ a b, R a b → S (f a) (g b)) : Option.Rel S (x.map f) (y.map g) := by
  cases h with
  | none => exact .none
  | some h => exact .some (hf _ _ h)

end Option.Rel

namespace MicroAsm

/-! ### Lists with like entries -/

section

variable {α β γ : Type} {R : α → β → Prop} {xs : List α} {ys : List β}

lemma rel_getElem? (h : List.Forall₂ R xs ys) (i : Nat) : Option.Rel R xs[i]? ys[i]? := by
  induction h generalizing i with
  | nil => exact .none
  | cons h _ ih =>
    cases i with
    | zero => exact .some h
    | succ i => exact ih i

lemma rel_find? {p : α → Bool} {q : β → Bool} (h : List.Forall₂ R xs ys)
    (hp : ∀ a b, R a b → p a = q b) : Option.Rel R (xs.find? p) (ys.find? q) := by
  induction h with
  | nil => exact .none
  | @cons a b xs ys h _ ih =>
    rw [List.find?_cons, List.find?_cons, ← hp a b h]
    cases p a with
    | true => exact .some h
    | false => exact ih

lemma rel_trans {S : β → γ → Prop} {T : α → γ → Prop} {zs : List γ} (h : List.Forall₂ R xs ys)
    (h' : List.Forall₂ S ys zs) (hT : ∀ a b c, R a b → S b c → T a c) :
    List.Forall₂ T xs zs := by
  induction h generalizing zs with
  | nil =>
    cases h'
    exact .nil
  | cons hab _ ih =>
    cases h' with
    | cons hbc h' => exact .cons (hT _ _ _ hab hbc) (ih h')

lemma map_eq_map_of_forall₂ {f : α → γ} {g : β → γ} (h : List.Forall₂ R xs ys)
    (hf : ∀ a b, R a b → f a = g b) : xs.map f = ys.map g := by
  induction h with
  | nil => rfl
  | cons h _ ih => rw [List.map_cons, List.map_cons, hf _ _ h, ih]

lemma map_eq_map_of_rel {f : α → γ} {g : β → γ} {x : Option α} {y : Option β}
    (h : Option.Rel R x y) (hf : ∀ a b, R a b → f a = g b) : x.map f = y.map g := by
  cases h with
  | none => rfl
  | some h => exact congrArg some (hf _ _ h)

end

/-! ### Likenesses -/

/-- What texts that are alike may differ in. -/
structure Likeness where
  /-- The places that stand for each other. -/
  place : Location → Location → Prop
  /-- Names are spelled the same, and so is every text that is made of them. -/
  spelled : Prop
  place_none : place .none .none

namespace Likeness

variable (L : Likeness)

/-- Places that stand for each other are told in the same words. -/
def Shows : Prop :=
  L.spelled → ∀ {l l' : Location}, L.place l l' → l.text = l'.text

/-- The same text, if names are spelled the same. -/
def SameText (s s' : String) : Prop :=
  L.spelled → s = s'

/-- The same name in letters of any case. -/
structure SameName (s s' : String) : Prop where
  lower : Text.lowerAscii s = Text.lowerAscii s'
  upper : Text.upper s = Text.upper s'
  text : L.SameText s s'

variable {L} {s s' t t' : String}

lemma SameText.refl (s : String) : L.SameText s s :=
  fun _ => rfl

lemma SameText.append (h : L.SameText s s') (h' : L.SameText t t') :
    L.SameText (s ++ t) (s' ++ t') :=
  fun hspelled => by rw [h hspelled, h' hspelled]

lemma SameName.refl (s : String) : L.SameName s s :=
  ⟨rfl, rfl, .refl s⟩

end Likeness

namespace Likeness.SameName

variable {L : Likeness} {s s' : String}

lemma map_toLower (h : L.SameName s s') :
    s.toList.map Char.toLower = s'.toList.map Char.toLower := by
  have hlower := congrArg String.toList h.lower
  rwa [Text.lowerAscii, Text.lowerAscii, String.toList_ofList, String.toList_ofList] at hlower

lemma codeIn? (h : L.SameName s s') (names : List String) :
    MicroAsm.codeIn? names s = MicroAsm.codeIn? names s' := by
  have heq : ∀ name, Text.eqIgnoringCase name s = Text.eqIgnoringCase name s' := by
    intro name
    rw [Text.eqIgnoringCase, Text.eqIgnoringCase, h.map_toLower]
  simp only [MicroAsm.codeIn?, heq]

lemma ofName? (h : L.SameName s s') : Cpu.ofName? s = Cpu.ofName? s' := by
  rw [Cpu.ofName?, Cpu.ofName?, h.lower]

lemma lookup (h : L.SameName s s') (cpu : Cpu) : cpu.lookup s = cpu.lookup s' := by
  simp only [Cpu.lookup, Cpu.instruction?, h.upper]

end Likeness.SameName

/-! ### Words and expressions -/

variable (L : Likeness)

/-- Tokens of the same kind and value. Identifiers may differ in the case of their letters. -/
structure Token.Alike (t t' : Token) : Prop where
  kind : t.kind = t'.kind
  value : t.kind ≠ .identifier → t.value = t'.value
  name : L.SameName t.value t'.value
  place : L.place t.location t'.location

inductive Term.Alike : Term → Term → Prop
  | number (n : Int) : Alike (.number n) (.number n)
  | symbol {name name' : String} (h : L.SameName name name') : Alike (.symbol name) (.symbol name')
  | locationCounter : Alike .locationCounter .locationCounter
  | char (c : Char) : Alike (.char c) (.char c)

structure SignedTerm.Alike (t t' : SignedTerm) : Prop where
  negative : t.negative = t'.negative
  term : t.term.Alike L t'.term

def Expr.Alike (e e' : Expr) : Prop :=
  List.Forall₂ (SignedTerm.Alike L) e.terms e'.terms

structure Value.Alike (v v' : Value) : Prop where
  expr : v.expr.Alike L v'.expr
  text : L.SameText v.text v'.text
  place : L.place v.location v'.location

/-! ### Statements -/

inductive Item.Alike : Item → Item → Prop
  | string {t t' : Token} (h : t.Alike L t') (hvalue : t.value = t'.value) :
    Alike (.string t) (.string t')
  | value {v v' : Value} (h : v.Alike L v') : Alike (.value v) (.value v')

inductive Argument.Alike : Argument → Argument → Prop
  | register (kind : OperandKind) {t t' : Token} (h : t.Alike L t') :
    Alike (.register kind t) (.register kind t')
  | value (kind : OperandKind) {v v' : Value} (h : v.Alike L v') :
    Alike (.value kind v) (.value kind v')

inductive Statement.Alike : Statement → Statement → Prop
  | empty {l l' : Location} (hplace : L.place l l') : Alike (.empty l) (.empty l')
  | cpu {l l' : Location} (hplace : L.place l l') {t t' : Token} (h : t.Alike L t') :
    Alike (.cpu l t) (.cpu l' t')
  | endUnit {l l' : Location} (hplace : L.place l l') : Alike (.endUnit l) (.endUnit l')
  | org {l l' : Location} (hplace : L.place l l') {v v' : Value} (h : v.Alike L v') :
    Alike (.org l v) (.org l' v')
  | assign (how : Assignment) {l l' : Location} (hplace : L.place l l') {v v' : Value}
    (h : v.Alike L v') : Alike (.assign how l v) (.assign how l' v')
  | data (width : Width) {l l' : Location} (hplace : L.place l l') {items items' : List Item}
    (h : List.Forall₂ (Item.Alike L) items items') :
    Alike (.data width l items) (.data width l' items')
  | instruction (i : Instruction) {l l' : Location} (hplace : L.place l l')
    {arguments arguments' : List Argument}
    (h : List.Forall₂ (Argument.Alike L) arguments arguments') :
    Alike (.instruction i l arguments) (.instruction i l' arguments')

inductive Fragment.Alike : Fragment → Fragment → Prop
  | nothing : Alike .nothing .nothing
  | org {l l' : Location} (hplace : L.place l l') : Alike (.org l) (.org l')
  | assign (how : Assignment) {l l' : Location} (hplace : L.place l l') :
    Alike (.assign how l) (.assign how l')
  | data (width : Width) {l l' : Location} (hplace : L.place l l') {items items' : List Item}
    (h : List.Forall₂ (Item.Alike L) items items') :
    Alike (.data width l items) (.data width l' items')
  | instruction (i : Instruction) {l l' : Location} (hplace : L.place l l')
    {arguments arguments' : List Argument}
    (h : List.Forall₂ (Argument.Alike L) arguments arguments') :
    Alike (.instruction i l arguments) (.instruction i l' arguments')

structure Failure.Alike (f f' : Failure) : Prop where
  place : L.place f.location f'.location
  fault : L.spelled → f.fault = f'.fault

inductive LineReading.Alike : LineReading → LineReading → Prop
  | accepted {label label' comment comment' : Option Token} {statement statement' : Statement}
    (hlabel : Option.Rel (Token.Alike L) label label') (h : statement.Alike L statement')
    (hcomment : Option.Rel (Token.Alike L) comment comment') :
    Alike (.accepted label statement comment) (.accepted label' statement' comment')
  | rejected {label label' : Option Token} {fragment fragment' : Fragment}
    {failure failure' : Failure} (hlabel : Option.Rel (Token.Alike L) label label')
    (h : fragment.Alike L fragment') (hfailure : failure.Alike L failure') :
    Alike (.rejected label fragment failure) (.rejected label' fragment' failure')

/-- Lines of like tokens. -/
structure SourceLine.Alike (line line' : SourceLine) : Prop where
  body : List.Forall₂ (Token.Alike L) line.body line'.body
  stop : line.stop.Alike L line'.stop

/-! ### Nodes and records -/

/-- The same kind of node. Only an expression has names. -/
inductive NodeKind.Alike : NodeKind → NodeKind → Prop
  | same (kind : NodeKind) : Alike kind kind
  | expression {e e' : Expr} (h : e.Alike L e') : Alike (.expression e) (.expression e')

structure Node.Alike (n n' : Node) : Prop where
  kind : n.kind.Alike L n'.kind
  text : L.SameText n.text n'.text
  place : L.place n.location n'.location

structure Deferred.Alike (d d' : Deferred) : Prop where
  offset : d.offset = d'.offset
  width : d.width = d'.width
  expr : d.expr.Alike L d'.expr

structure OperandNode.Alike (o o' : OperandNode) : Prop where
  node : o.node.Alike L o'.node
  deferred : Option.Rel (Deferred.Alike L) o.deferred o'.deferred

structure Line.Alike (l l' : Line) : Prop where
  place : l.place = l'.place
  location : L.place l.location l'.location
  label : Option.Rel (Node.Alike L) l.label l'.label
  statement : l.statement.Alike L l'.statement
  operands : List.Forall₂ (OperandNode.Alike L) l.operands l'.operands
  comment : Option.Rel (Node.Alike L) l.comment l'.comment

structure Remnant.Alike (r r' : Remnant) : Prop where
  label : Option.Rel (Node.Alike L) r.label r'.label
  statement : Option.Rel (Node.Alike L) r.statement r'.statement
  operands : List.Forall₂ (Node.Alike L) r.operands r'.operands

inductive Record.Alike : Record → Record → Prop
  | line {l l' : Line} (h : l.Alike L l') : Alike (.line l) (.line l')
  | remnant {r r' : Remnant} (h : r.Alike L r') : Alike (.remnant r) (.remnant r')

/-! ### Symbols and messages -/

structure Symbol.Alike (s s' : Symbol) : Prop where
  name : L.SameName s.name s'.name
  value : s.value = s'.value
  kind : s.kind = s'.kind

/-- Tables with like symbols under the same keys. -/
def SymbolTable.Alike (t t' : SymbolTable) : Prop :=
  List.Forall₂ (fun entry entry' => entry.1 = entry'.1 ∧ entry.2.Alike L entry'.2)
    t.entries t'.entries

structure Message.Alike (m m' : Message) : Prop where
  severity : m.severity = m'.severity
  place : L.place m.location m'.location
  text : L.SameText m.text m'.text

/-- Logs with like messages in the same order. -/
structure Log.Alike (log log' : Log) : Prop where
  messages : List.Forall₂ (Message.Alike L) log.messages.toList log'.messages.toList
  errors : log.errors = log'.errors
  warnings : log.warnings = log'.warnings
  exceptions : log.exceptions = log'.exceptions

end MicroAsm
