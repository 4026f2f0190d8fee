import Mathlib.Data.List.Nodup
import Mathlib.Data.List.Perm.Subperm
import Mathlib.Logic.Function.Basic
import MicroAsm.Proofs.Tree.Growth

/-!
# Families of nodes

As long as no node is given a parent twice, the links of a tree tell which children each node has
been given, in which order. Then there is at most one way along links to any node, so whoever
follows links from the root meets no node twice and comes to an end.
-/

namespace MicroAsm

namespace SyntaxTree

variable {t : SyntaxTree} {kids : Nat → List Nat} {id parent child : Nat}

/-- The links of a tree make these the children of its nodes, and each node is the child of one at
most. -/
structure Families (t : SyntaxTree) (kids : Nat → List Nat) : Prop where
  first : ∀ p, t.first? p = (kids p).head?
  last : ∀ p, t.last? p = (kids p).getLast?
  next : ∀ {p c front back}, kids p = front ++ c :: back → t.next? c = back.head?
  next_of_orphan : ∀ c, (∀ p, c ∉ kids p) → t.next? c = none
  nodup : ∀ p, (kids p).Nodup
  parent : ∀ {p q c}, c ∈ kids p → c ∈ kids q → p = q
  lt : ∀ {p c}, c ∈ kids p → c < t.size

/-! ### Links of a node that gets a child -/

lemma first?_appendChild (hparent : parent < t.size) (child id : Nat) :
    (t.appendChild parent child).first? id =
      if t.last? parent = none ∧ parent = id then some child else t.first? id := by
  rw [first?, nodes_appendChild]
  cases he : t.nodes[id]? with
  | none =>
    have hne : parent ≠ id := by
      rintro rfl
      exact absurd (Array.getElem?_eq_none_iff.mp he) (Nat.not_le_of_lt hparent)
    simp [hne, first?, he]
  | some e => simp [first?, he]

lemma last?_appendChild_eq (hparent : parent < t.size) (child id : Nat) :
    (t.appendChild parent child).last? id = if parent = id then some child else t.last? id := by
  rw [last?, nodes_appendChild]
  cases he : t.nodes[id]? with
  | none =>
    have hne : parent ≠ id := by
      rintro rfl
      exact absurd (Array.getElem?_eq_none_iff.mp he) (Nat.not_le_of_lt hparent)
    simp [hne, last?, he]
  | some e => simp [last?, he]

lemma next?_appendChild (hid : t.last? parent = some id → id < t.size) (child : Nat) :
    (t.appendChild parent child).next? id =
      if t.last? parent = some id then some child else t.next? id := by
  rw [next?, nodes_appendChild]
  cases he : t.nodes[id]? with
  | none =>
    have hne : t.last? parent ≠ some id := by
      intro hlast
      exact absurd (Array.getElem?_eq_none_iff.mp he) (Nat.not_le_of_lt (hid hlast))
    simp [hne, next?, he]
  | some e => simp [next?, he]

lemma node?_appendChild (t : SyntaxTree) (parent child id : Nat) :
    (t.appendChild parent child).node? id = t.node? id := by
  rw [node?, node?, nodes_appendChild, Option.map_map]
  rfl

lemma node?_appendChildren (t : SyntaxTree) (parent : Nat) (children : List Nat) (id : Nat) :
    (t.appendChildren parent children).node? id = t.node? id := by
  induction children generalizing t with
  | nil => rfl
  | cons child children ih => rw [appendChildren_cons, ih, node?_appendChild]

/-! ### How families grow -/

namespace Families

lemma empty : Families {} fun _ => [] := by
  constructor <;> simp [first?, last?, next?]

lemma extend (h : Families t kids) (ns : List Node) : Families (t.extend ns) kids where
  first p := by rw [first?, bind_nodes_extend fun _ => rfl]; exact h.first p
  last p := by rw [last?, bind_nodes_extend fun _ => rfl]; exact h.last p
  next heq := by rw [next?, bind_nodes_extend fun _ => rfl]; exact h.next heq
  next_of_orphan c hc := by
    rw [next?, bind_nodes_extend fun _ => rfl]
    exact h.next_of_orphan c hc
  nodup := h.nodup
  parent := h.parent
  lt hc := by rw [size_extend]; exact Nat.lt_of_lt_of_le (h.lt hc) (Nat.le_add_right _ _)

/-- The root is no part of the families. -/
lemma withRoot (h : Families t kids) (root : Option Nat) : Families { t with root := root } kids :=
  ⟨h.first, h.last, h.next, h.next_of_orphan, h.nodup, h.parent, h.lt⟩

lemma lt_of_getLast? (h : Families t kids) (hlast : t.last? parent = some id) : id < t.size := by
  rw [h.last] at hlast
  exact h.lt (List.mem_of_getLast? hlast)

lemma eq_nil_of_le (h : Families t kids) (hid : t.size ≤ id) : kids id = [] := by
  rw [← List.head?_eq_none_iff, ← h.first, first?, Array.getElem?_eq_none hid]
  rfl

/-- A new node is nobody's child. -/
lemma not_mem_of_le (h : Families t kids) (hid : t.size ≤ id) (p : Nat) : id ∉ kids p :=
  fun hmem => absurd (h.lt hmem) (Nat.not_lt_of_le hid)

/-- Who is a child when a node has been given one was a child before, or is the new one. -/
lemma mem_update {p c : Nat}
    (hc : c ∈ Function.update kids parent (kids parent ++ [child]) p) :
    c ∈ kids p ∨ p = parent ∧ c = child := by
  by_cases hp : p = parent
  · rw [hp, Function.update_self, List.mem_append, List.mem_singleton] at hc
    rw [hp]
    exact hc.imp_right fun heq => ⟨rfl, heq⟩
  · rw [Function.update_of_ne hp] at hc
    exact Or.inl hc

lemma mem_update_of_mem {p c : Nat} (hc : c ∈ kids p) :
    c ∈ Function.update kids parent (kids parent ++ [child]) p := by
  by_cases hp : p = parent
  · rw [hp] at hc ⊢
    rw [Function.update_self]
    exact List.mem_append_left _ hc
  · rwa [Function.update_of_ne hp]

/-- The new child is the last one, and the one that was the last is in front of it. -/
lemma next_appendChild (h : Families t kids) (horphan : ∀ p, child ∉ kids p) {p c : Nat}
    {front back : List Nat}
    (heq : Function.update kids parent (kids parent ++ [child]) p = front ++ c :: back) :
    (t.appendChild parent child).next? c = back.head? := by
  rw [next?_appendChild h.lt_of_getLast?, h.last]
  by_cases hp : p = parent
  · rw [hp, Function.update_self] at heq
    rcases List.eq_nil_or_concat' back with rfl | ⟨back, last, rfl⟩
    · obtain ⟨-, hc⟩ := List.append_inj' heq rfl
      obtain rfl : child = c := by simpa using hc
      rw [if_neg fun hlast => horphan parent (List.mem_of_getLast? hlast),
        h.next_of_orphan child horphan, List.head?_nil]
    · rw [← List.cons_append, ← List.append_assoc] at heq
      obtain ⟨hold, hnew⟩ := List.append_inj' heq rfl
      obtain rfl : child = last := by simpa using hnew
      cases back with
      | nil => rw [if_pos (by rw [hold, List.getLast?_concat]), List.nil_append, List.head?_cons]
      | cons d back =>
        rw [if_neg, h.next hold, List.cons_append, List.head?_cons, List.head?_cons]
        intro hlast
        have hnodup := h.nodup parent
        rw [hold, List.getLast?_append_of_ne_nil _ (List.cons_ne_nil _ _),
          List.getLast?_cons_cons] at hlast
        rw [hold, List.nodup_append] at hnodup
        exact (List.nodup_cons.mp hnodup.2.1).1 (List.mem_of_getLast? hlast)
  · rw [Function.update_of_ne hp] at heq
    rw [if_neg, h.next heq]
    intro hlast
    exact hp (h.parent (by rw [heq]; simp) (List.mem_of_getLast? hlast))

/-- A node without a parent gets one. -/
lemma appendChild (h : Families t kids) (hparent : parent < t.size) (hchild : child < t.size)
    (horphan : ∀ p, child ∉ kids p) :
    Families (t.appendChild parent child)
      (Function.update kids parent (kids parent ++ [child])) where
  first p := by
    rw [first?_appendChild hparent]
    by_cases hp : p = parent
    · subst hp
      rw [Function.update_self, h.first]
      have hlast := h.last p
      cases hkids : kids p with
      | nil => simp [hkids, hlast]
      | cons c cs => simp [hkids, hlast]
    · rw [Function.update_of_ne hp, if_neg (by simp [Ne.symm hp]), h.first]
  last p := by
    rw [last?_appendChild_eq hparent]
    by_cases hp : p = parent
    · rw [hp, if_pos rfl, Function.update_self, List.getLast?_concat]
    · rw [if_neg (Ne.symm hp), Function.update_of_ne hp, h.last]
  next heq := h.next_appendChild horphan heq
  next_of_orphan c hc := by
    have horphan' : ∀ p, c ∉ kids p := fun p hp => hc p (mem_update_of_mem hp)
    rw [next?_appendChild h.lt_of_getLast?, h.last, if_neg, h.next_of_orphan c horphan']
    exact fun hlast => horphan' parent (List.mem_of_getLast? hlast)
  nodup p := by
    by_cases hp : p = parent
    · rw [hp, Function.update_self, List.nodup_append]
      refine ⟨h.nodup parent, List.nodup_singleton _, ?_⟩
      rintro c hc _ hd rfl
      rw [List.mem_singleton] at hd
      exact horphan parent (hd ▸ hc)
    · rw [Function.update_of_ne hp]
      exact h.nodup p
  parent := by
    intro p q c hp hq
    rcases mem_update hp with hp' | ⟨hp', rfl⟩
    · rcases mem_update hq with hq' | ⟨-, rfl⟩
      · exact h.parent hp' hq'
      · exact absurd hp' (horphan p)
    · rcases mem_update hq with hq' | ⟨hq', -⟩
      · exact absurd hq' (horphan q)
      · exact hp'.trans hq'.symm
  lt hc := by
    rw [size_appendChild]
    rcases mem_update hc with hc' | ⟨-, rfl⟩
    · exact h.lt hc'
    · exact hchild

/-- Nodes without parents get the same one, one after the other. -/
lemma appendChildren {children : List Nat} (h : Families t kids) (hparent : parent < t.size)
    (hlt : ∀ c ∈ children, c < t.size) (hnodup : children.Nodup)
    (horphan : ∀ c ∈ children, ∀ p, c ∉ kids p) :
    Families (t.appendChildren parent children)
      (Function.update kids parent (kids parent ++ children)) := by
  induction children generalizing t kids with
  | nil => rwa [List.append_nil, Function.update_eq_self]
  | cons child children ih =>
    rw [List.forall_mem_cons] at hlt horphan
    rw [List.nodup_cons] at hnodup
    have hfirst := h.appendChild hparent hlt.1 horphan.1
    have hrest := ih hfirst (by rwa [size_appendChild])
      (fun c hc => by rw [size_appendChild]; exact hlt.2 c hc) hnodup.2 ?_
    · rwa [Function.update_idem, Function.update_self, List.append_assoc] at hrest
    · intro c hc p hp
      by_cases heq : p = parent
      · rw [heq, Function.update_self, List.mem_append, List.mem_singleton] at hp
        rcases hp with hp | rfl
        · exact horphan.2 c hc parent hp
        · exact hnodup.1 hc
      · rw [Function.update_of_ne heq] at hp
        exact horphan.2 c hc p hp

/-! ### Children -/

/-- Siblings are found up to the last one. -/
lemma siblings_eq (h : Families t kids) {p fuel : Nat} (front : List Nat) {back : List Nat}
    (heq : kids p = front ++ back) (hfuel : back.length ≤ fuel) :
    t.siblings fuel back.head? = back := by
  induction back generalizing front fuel with
  | nil => exact siblings_none t fuel
  | cons c back ih =>
    obtain ⟨fuel, rfl⟩ : ∃ k, fuel = k + 1 := ⟨fuel - 1, by simp at hfuel; omega⟩
    rw [List.head?_cons, siblings, ← next?, h.next heq,
      ih (front ++ [c]) (by rw [heq, List.append_assoc]; rfl) (by simpa using hfuel)]

/-- No node has more children than the tree has nodes. -/
lemma length_le (h : Families t kids) (p : Nat) : (kids p).length ≤ t.size := by
  have hsubset : kids p ⊆ List.range t.size := fun c hc => List.mem_range.mpr (h.lt hc)
  have hle := (List.subperm_of_subset (h.nodup p) hsubset).length_le
  rwa [List.length_range] at hle

lemma children_eq (h : Families t kids) (p : Nat) : t.children p = kids p := by
  rw [children, ← first?, h.first]
  exact h.siblings_eq [] rfl (h.length_le p)

end Families

/-! ### Ways along links -/

/-- The links that lead on from a node. -/
inductive Link where
  | child
  | sibling
deriving DecidableEq, Repr

/-- The node that a link leads to. -/
def target? (t : SyntaxTree) (id : Nat) : Link → Option Nat
  | .child => t.first? id
  | .sibling => t.next? id

/-- The node that a way along links from the root leads to. -/
def follow (t : SyntaxTree) (way : List Link) : Option Nat :=
  way.foldl (fun id link => id.bind (t.target? · link)) t.root

lemma follow_concat (t : SyntaxTree) (way : List Link) (link : Link) :
    t.follow (way ++ [link]) = (t.follow way).bind (t.target? · link) := by
  rw [follow, List.foldl_append]
  rfl

lemma follow_of_root_eq_none (h : t.root = none) (way : List Link) : t.follow way = none := by
  induction way using List.reverseRecOn with
  | nil => exact h
  | append_singleton front link ih => rw [follow_concat, ih, Option.bind_none]

/-- The node is the top one, or a child of one that is below it. -/
inductive Below (kids : Nat → List Nat) (top : Nat) : Nat → Prop
  | top : Below kids top top
  | child {p c : Nat} (hp : Below kids top p) (hc : c ∈ kids p) : Below kids top c

/-- The ways start at this node of the tree, and it is nobody's child. -/
structure IsTop (t : SyntaxTree) (kids : Nat → List Nat) (top : Nat) : Prop where
  root : t.root = some top
  lt : top < t.size
  orphan : ∀ p, top ∉ kids p

namespace Families

variable {root : Nat} {way way' : List Link} {link link' : Link}

/-- A sibling follows another child of the same node. -/
lemma exists_of_next? (h : Families t kids) {next : Nat} (hnext : t.next? id = some next) :
    ∃ p front back, kids p = front ++ id :: next :: back := by
  by_cases horphan : ∀ p, id ∉ kids p
  · rw [h.next_of_orphan id horphan] at hnext
    cases hnext
  · simp only [not_forall, not_not] at horphan
    obtain ⟨p, hp⟩ := horphan
    obtain ⟨front, back, heq⟩ := List.append_of_mem hp
    rw [h.next heq] at hnext
    obtain ⟨rest, rfl⟩ := List.head?_eq_some_iff.mp hnext
    exact ⟨p, front, rest, heq⟩

/-- Every link leads to a child of some node. -/
lemma exists_mem_of_target? (h : Families t kids) (htarget : t.target? id link = some child) :
    ∃ p, child ∈ kids p ∧ (link = .child ∧ p = id ∨ link = .sibling ∧ id ∈ kids p) := by
  cases link with
  | child =>
    have hfirst : t.first? id = some child := htarget
    rw [h.first] at hfirst
    exact ⟨id, List.mem_of_mem_head? hfirst, Or.inl ⟨rfl, rfl⟩⟩
  | sibling =>
    obtain ⟨p, front, back, heq⟩ := h.exists_of_next? htarget
    exact ⟨p, by simp [heq], Or.inr ⟨rfl, by simp [heq]⟩⟩

/-- A first child follows no other child. -/
lemma next?_ne_of_first? (h : Families t kids) (hfirst : t.first? parent = some child) :
    t.next? id ≠ some child := by
  intro hnext
  obtain ⟨p, front, back, heq⟩ := h.exists_of_next? hnext
  rw [h.first] at hfirst
  obtain ⟨rest, hrest⟩ := List.head?_eq_some_iff.mp hfirst
  obtain rfl : p = parent := h.parent (c := child) (by simp [heq]) (by simp [hrest])
  have hnodup := h.nodup p
  rw [heq] at hrest hnodup
  cases front with
  | nil =>
    obtain ⟨rfl, -⟩ := List.cons.inj hrest
    simp at hnodup
  | cons c front =>
    obtain ⟨rfl, -⟩ := List.cons.inj hrest
    simp at hnodup

/-- A child follows one other child at most. -/
lemma eq_of_next? (h : Families t kids) {id' : Nat} (hnext : t.next? id = some child)
    (hnext' : t.next? id' = some child) : id = id' := by
  obtain ⟨p, front, back, heq⟩ := h.exists_of_next? hnext
  obtain ⟨q, front', back', heq'⟩ := h.exists_of_next? hnext'
  obtain rfl : p = q := h.parent (c := child) (by simp [heq]) (by simp [heq'])
  have hnodup := h.nodup p
  rw [List.append_cons] at heq heq'
  rw [heq, List.nodup_append, List.nodup_cons] at hnodup
  obtain ⟨-, ⟨hback, -⟩, hfront⟩ := hnodup
  have hnot : child ∉ front ++ [id] := fun hmem => hfront _ hmem _ List.mem_cons_self rfl
  obtain ⟨hsame, -⟩ := (List.append_cons_inj_of_notMem hnot hback).mp (heq.symm.trans heq')
  obtain ⟨-, hid⟩ := List.append_inj' hsame rfl
  exact List.head_eq_of_cons_eq hid

/-- At most one link leads to a node. -/
lemma target?_inj (h : Families t kids) {id' : Nat} (htarget : t.target? id link = some child)
    (htarget' : t.target? id' link' = some child) : id = id' ∧ link = link' := by
  cases link with
  | child =>
    cases link' with
    | child =>
      simp only [target?, h.first] at htarget htarget'
      exact ⟨h.parent (List.mem_of_mem_head? htarget) (List.mem_of_mem_head? htarget'), rfl⟩
    | sibling => exact absurd htarget' (h.next?_ne_of_first? htarget)
  | sibling =>
    cases link' with
    | child => exact absurd htarget (h.next?_ne_of_first? htarget')
    | sibling => exact ⟨h.eq_of_next? htarget htarget', rfl⟩

/-- At most one way leads from the root to a node. -/
lemma follow_inj (h : Families t kids) (htop : IsTop t kids root)
    (hway : t.follow way = some id) (hway' : t.follow way' = some id) : way = way' := by
  have hstart : t.follow [] = some root := htop.root
  have hroot : ∀ id link, t.target? id link ≠ some root := by
    intro id link htarget
    obtain ⟨p, hp, -⟩ := h.exists_mem_of_target? htarget
    exact htop.orphan p hp
  induction way using List.reverseRecOn generalizing id way' with
  | nil =>
    rw [hstart] at hway
    cases hway
    rcases List.eq_nil_or_concat' way' with rfl | ⟨front, link, rfl⟩
    · rfl
    · rw [follow_concat, Option.bind_eq_some_iff] at hway'
      obtain ⟨from', -, htarget⟩ := hway'
      exact absurd htarget (hroot from' link)
  | append_singleton front link ih =>
    rw [follow_concat, Option.bind_eq_some_iff] at hway
    obtain ⟨before, hbefore, htarget⟩ := hway
    rcases List.eq_nil_or_concat' way' with rfl | ⟨front', link', rfl⟩
    · rw [hstart] at hway'
      cases hway'
      exact absurd htarget (hroot before link)
    · rw [follow_concat, Option.bind_eq_some_iff] at hway'
      obtain ⟨before', hbefore', htarget'⟩ := hway'
      obtain ⟨rfl, rfl⟩ := h.target?_inj htarget htarget'
      rw [ih hbefore hbefore']

/-- Only nodes below the root are met. -/
lemma below_of_follow (h : Families t kids) (htop : IsTop t kids root)
    (hway : t.follow way = some id) : Below kids root id := by
  induction way using List.reverseRecOn generalizing id with
  | nil =>
    rw [show t.follow [] = some root from htop.root] at hway
    cases hway
    exact .top
  | append_singleton front link ih =>
    rw [follow_concat, Option.bind_eq_some_iff] at hway
    obtain ⟨before, hbefore, htarget⟩ := hway
    obtain ⟨p, hp, ⟨-, rfl⟩ | ⟨-, hsibling⟩⟩ := h.exists_mem_of_target? htarget
    · exact .child (ih hbefore) hp
    · cases ih hbefore with
      | top => exact absurd hsibling (htop.orphan p)
      | child hparent hmem =>
        rw [h.parent hmem hsibling] at hparent
        exact .child hparent hp

/-- Every link leads to a node of the tree. -/
lemma lt_of_follow (h : Families t kids) (htop : IsTop t kids root)
    (hway : t.follow way = some id) : id < t.size := by
  cases h.below_of_follow htop hway with
  | top => exact htop.lt
  | child _ hmem => exact h.lt hmem

/-- The front of a way leads to a node, too. -/
lemma exists_follow_take (hway : t.follow way = some id) (k : Nat) :
    ∃ id', t.follow (way.take k) = some id' := by
  induction way using List.reverseRecOn generalizing id with
  | nil => exact ⟨id, by rwa [List.take_nil]⟩
  | append_singleton front link ih =>
    by_cases hk : k ≤ front.length
    · rw [follow_concat, Option.bind_eq_some_iff] at hway
      obtain ⟨before, hbefore, -⟩ := hway
      rw [List.take_append_of_le_length hk]
      exact ih hbefore
    · rw [List.take_of_length_le (by simp; omega)]
      exact ⟨id, hway⟩

/-- A way meets no node twice, so it is shorter than the tree is large. -/
lemma length_lt_of_follow (h : Families t kids) (htop : IsTop t kids root)
    (hway : t.follow way = some id) : way.length < t.size := by
  have hnodup : ((List.range (way.length + 1)).map fun k => t.follow (way.take k)).Nodup := by
    refine List.Nodup.map_on ?_ List.nodup_range
    intro k hk k' hk' heq
    rw [List.mem_range] at hk hk'
    obtain ⟨id', hid'⟩ := exists_follow_take hway k
    have hsame := h.follow_inj htop hid' (heq ▸ hid')
    have hlength := congrArg List.length hsame
    rw [List.length_take, List.length_take] at hlength
    omega
  have hsubset : ((List.range (way.length + 1)).map fun k => t.follow (way.take k)) ⊆
      (List.range t.size).map some := by
    intro x hx
    obtain ⟨k, -, rfl⟩ := List.mem_map.mp hx
    obtain ⟨id', hid'⟩ := exists_follow_take hway k
    simp only [hid']
    exact List.mem_map_of_mem (List.mem_range.mpr (h.lt_of_follow htop hid'))
  have hle := (List.subperm_of_subset hnodup hsubset).length_le
  rw [List.length_map, List.length_map, List.length_range, List.length_range] at hle
  exact hle

end Families

end SyntaxTree

end MicroAsm
