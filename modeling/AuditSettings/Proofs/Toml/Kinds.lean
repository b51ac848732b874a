/-
AuditSettings.Proofs.Toml.Kinds — what pairs make at each address.

A table under construction answers what is at an address: it looks up the
newest entry of each name and the item of each index. `Tells` compares these
answers with the acts of the document. Where faults are seen, the answer is
what the acts leave there; one step beyond, there is something at least
wherever they leave something; and the acts fit. Each way to change a table
tells the acts that it is for, given that no fault is seen afterwards.
-/
import AuditSettings.Proofs.Toml.Seen

namespace AuditSettings.Toml

open AuditSettings.Text

/-! ## What is at an address -/

/-- What a node is. -/
def Node.kind : Node → NodeKind
  | .scalar _ _ _ => .scalar
  | .array _ _ ofTables _ => .array ofTables
  | .table _ _ kind _ => .table kind

/-- What is at an address in a node, if anything. -/
def Node.kindAt? : Node → Address → Option NodeKind
  | n, [] => some n.kind
  | .table faults _ _ entries, .key name :: a =>
    (Contents.find? ⟨faults, entries⟩ name).bind fun e => e.2.kindAt? a
  | .array _ _ _ items, .index i :: a => items[i]?.bind fun n => n.kindAt? a
  | _, _ :: _ => none

namespace Contents

variable {t : Contents} {k old : KeyPart} {n m : Node} {l : Location} {kind : TableKind}

@[simp] theorem kindAt?_node_key (t : Contents) (name : String) (a : Address) :
    (t.node l kind).kindAt? (.key name :: a) = (t.find? name).bind fun e => e.2.kindAt? a := rfl

@[simp] theorem kindAt?_node_index (t : Contents) (i : Nat) (a : Address) :
    (t.node l kind).kindAt? (.index i :: a) = none := rfl

theorem find?_push (t : Contents) (k : KeyPart) (n : Node) (name : String) :
    (t.push k n).find? name = if k.name = name then some (k, n) else t.find? name := by
  rw [find?, find?, List.findRev?_eq_find?_reverse, List.findRev?_eq_find?_reverse]
  by_cases hk : k.name = name
  · simp [push, hk]
  · simp [push, hk]

theorem find?_setNewest {name : String} (h : t.find? name = some (k, n)) (m : Node)
    (other : String) :
    (t.setNewest name m).find? other = if other = name then some (k, m) else t.find? other := by
  obtain ⟨hk, older, fresh, ht, hf⟩ := find?_eq_some_iff.1 h
  rw [setNewest_eq ht hk hf]
  by_cases hother : other = name
  · subst hother
    rw [if_pos rfl]
    exact find?_eq_some_iff.2 ⟨hk, older, fresh, rfl, hf⟩
  · have hkey : k.name ≠ other := fun heq => hother (heq.symm.trans hk)
    rw [if_neg hother, find?, find?, List.findRev?_eq_find?_reverse,
      List.findRev?_eq_find?_reverse, ht]
    simp [List.find?_append, hkey]

end Contents

/-- The faults of a table do not change what is at an address in it. -/
theorem Node.kindAt?_table (faults faults' : List Clash) (l l' : Location) (kind : TableKind)
    (es : List (KeyPart × Node)) :
    (Node.table faults l kind es).kindAt? = (Node.table faults' l' kind es).kindAt? := by
  funext a
  cases a with
  | nil => rfl
  | cons x a => cases x <;> rfl

theorem Node.kindAt?_array (faults faults' : List Clash) (l l' : Location) (ofTables : Bool)
    (items : List Node) :
    (Node.array faults l ofTables items).kindAt? =
      (Node.array faults' l' ofTables items).kindAt? := by
  funext a
  cases a with
  | nil => rfl
  | cons x a => cases x <;> rfl

theorem Node.kindAt?_addFault (c : Clash) (n : Node) : (n.addFault c).kindAt? = n.kindAt? := by
  cases n with
  | scalar faults l v =>
    funext a
    cases a with
    | nil => rfl
    | cons x a => cases x <;> rfl
  | array faults l ofTables items => exact kindAt?_array ..
  | table faults l kind es => exact kindAt?_table ..

/-- What is nowhere has nothing in it. -/
theorem Node.kindAt?_append_eq_none {n : Node} {a : Address} (h : n.kindAt? a = none) (b : Address) :
    n.kindAt? (a ++ b) = none := by
  induction a generalizing n with
  | nil => cases h
  | cons x a ih =>
    cases n with
    | scalar faults l v => cases x <;> rfl
    | array faults l ofTables items =>
      cases x with
      | key name => rfl
      | index i =>
        cases hi : items[i]? with
        | none => simp [kindAt?, hi]
        | some m =>
          simp only [kindAt?, hi, Option.bind_some] at h
          simp [kindAt?, hi, ih h]
    | table faults l kind es =>
      cases x with
      | index i => rfl
      | key name =>
        cases hfind : Contents.find? ⟨faults, es⟩ name with
        | none => simp [kindAt?, hfind]
        | some e =>
          simp only [kindAt?, hfind, Option.bind_some] at h
          simp [kindAt?, hfind, ih h]

/-! ## Telling acts -/

/-- Whether a node tells acts, given what was there before: where its faults
are seen, just what they leave is there, where it is reached, something at
least, and the acts fit. -/
structure Node.Tells (s : Sight) (start : Address → Option NodeKind) (n : Node)
    (acts : List (Address × Act)) : Prop where
  kindAt : ∀ a, s.Sees a → n.kindAt? a = after start acts a
  isSome : ∀ a, s.Reaches a → (after start acts a).isSome → (n.kindAt? a).isSome
  fits : s.AllFit start acts

namespace Node.Tells

variable {s : Sight} {start : Address → Option NodeKind} {n m : Node}
  {xs ys acts : List (Address × Act)}

theorem trans (h : n.Tells s start xs) (h' : m.Tells s n.kindAt? ys) :
    m.Tells s start (xs ++ ys) where
  kindAt a ha := by rw [h'.kindAt a ha, after_append, after, after, h.kindAt a ha]
  isSome a ha hsome := by
    refine h'.isSome a ha ?_
    rw [after_append, after] at hsome
    rw [after]
    rcases hold : after start xs a with - | κ
    · rw [hold, Option.none_or] at hsome
      cases n.kindAt? a with
      | none => simpa using hsome
      | some κ => rfl
    · obtain ⟨κ', hκ'⟩ := Option.isSome_iff_exists.1 (h.isSome a ha (by simp [hold]))
      simp [hκ']
  fits := Sight.allFit_append.2 ⟨h.fits,
    h'.fits.mono (fun a ha => (h.kindAt a ha).symm) fun a ha hsome => h.isSome a ha hsome⟩

/-- What is not done to the node itself is told where nothing is seen. -/
theorem blind (hroot : Rooted acts) : n.Tells .blind start acts where
  kindAt a ha := absurd ha (Sight.not_sees_blind a)
  isSome a ha _ := by
    cases a with
    | nil => rfl
    | cons x a => exact absurd rfl ha.1
  fits := by
    induction acts generalizing start with
    | nil => trivial
    | cons x acts ih =>
      obtain ⟨a, e⟩ := x
      have hne : a ≠ [] := hroot (a, e) List.mem_cons_self
      refine ⟨?_, ih fun y hy => hroot y (List.mem_cons_of_mem _ hy)⟩
      cases e with
      | assign κ =>
        intro ha
        cases a with
        | nil => exact absurd rfl hne
        | cons x a => exact absurd rfl ha.1
      | name | extend =>
        intro ha
        exact absurd ha (Sight.not_sees_blind a)
      | imply | pass | element => trivial

/-- An act at a node that is there already may be told in front. -/
theorem act {e : Act} (h : n.Tells s start acts) (hsome : (start []).isSome)
    (hfits : s.Fits [] (start []) e) : n.Tells s start (([], e) :: acts) := by
  have hafter : after start [([], e)] = start := by
    funext a
    obtain ⟨κ, hκ⟩ := Option.isSome_iff_exists.1 hsome
    cases a with
    | nil => simp [after, hκ]
    | cons x a => simp [after, List.lookup_cons]
  have hcons : after start (([], e) :: acts) = after start acts := by
    have := after_append start [([], e)] acts
    rwa [hafter] at this
  refine ⟨?_, ?_, hfits, ?_⟩
  · rw [hcons]
    exact h.kindAt
  · rw [hcons]
    exact h.isSome
  · rw [hafter]
    exact h.fits

/-- Acts further down are told by a node in which only what they lead to has
changed. -/
theorem within {x : Step} {m : Node} (hn : m.Tells (s.within x) (fun a => start (x :: a)) acts)
    (hroot : n.kindAt? [] = start []) (hx : ∀ a, n.kindAt? (x :: a) = m.kindAt? a)
    (hother : ∀ y a, y ≠ x → n.kindAt? (y :: a) = start (y :: a)) :
    n.Tells s start (under [x] acts) := by
  have hafter : ∀ a, after start (under [x] acts) (x :: a) =
      after (fun a => start (x :: a)) acts a := by
    intro a
    simp [after]
  have hsame : ∀ y a, y ≠ x → after start (under [x] acts) (y :: a) = start (y :: a) := by
    intro y a hy
    simp [after, lookup_under_cons, Ne.symm hy]
  refine ⟨fun a ha => ?_, fun a ha hsome => ?_, hn.fits.under⟩
  · cases a with
    | nil => simp [after, hroot]
    | cons y a =>
      by_cases hy : y = x
      · subst hy
        rw [hx, hafter, hn.kindAt a ha]
      · rw [hother y a hy, hsame y a hy]
  · cases a with
    | nil => rfl
    | cons y a =>
      by_cases hy : y = x
      · subst hy
        rw [hafter] at hsome
        rw [hx]
        exact hn.isSome a ha.2 hsome
      · rw [hsame y a hy] at hsome
        rwa [hother y a hy]

end Node.Tells

/-! ## Making and changing entries -/

namespace Contents

variable {s : Sight} {t : Contents} {k old : KeyPart} {n m : Node} {l : Location}
  {kind : TableKind} {acts : List (Address × Act)}

/-- A table is made. -/
theorem tells_empty {e : Act} (h : e.makes = .table kind) :
    (empty.node l kind).Tells s (fun _ => none) [([], e)] := by
  have hafter : (empty.node l kind).kindAt? = after (fun _ => none) [([], e)] := by
    funext a
    cases a with
    | nil => simp [after, h, node, Node.kindAt?, Node.kind]
    | cons x a => cases x <;> simp [after, List.lookup_cons, empty, find?]
  refine ⟨fun a _ => by rw [hafter], fun a _ => by rw [hafter]; exact id, ?_, trivial⟩
  cases e with
  | assign κ =>
    intro _
    rfl
  | name | extend =>
    intro _
    exact .inl rfl
  | imply | pass | element => trivial

/-- An entry is added under a name that was not there. -/
theorem tells_push (hfind : t.find? k.name = none)
    (hn : n.Tells (s.within (.key k.name)) (fun _ => none) acts) :
    ((t.push k n).node l kind).Tells s (t.node l kind).kindAt? (under [.key k.name] acts) := by
  refine Node.Tells.within (m := n) ?_ rfl (fun a => ?_) fun y a hy => ?_
  · simpa [hfind] using hn
  · simp [find?_push]
  · cases y with
    | key name =>
      have hne : k.name ≠ name := fun heq => hy (by rw [heq])
      simp [find?_push, hne]
    | index i => rfl

/-- The newest entry of a name is replaced. -/
theorem tells_setNewest (hfind : t.find? k.name = some (old, n))
    (hm : m.Tells (s.within (.key k.name)) n.kindAt? acts) :
    ((t.setNewest k.name m).node l kind).Tells s (t.node l kind).kindAt?
      (under [.key k.name] acts) := by
  refine Node.Tells.within (m := m) ?_ rfl (fun a => ?_) fun y a hy => ?_
  · simpa [hfind] using hm
  · simp [find?_setNewest hfind]
  · cases y with
    | key name =>
      have hne : name ≠ k.name := fun heq => hy (by rw [heq])
      simp [find?_setNewest hfind, hne]
    | index i => rfl

/-! ## Pairs -/

/-- A pair tells the acts of its key and its value. -/
theorem tells_put (hn : ∀ s, n.Clean s → n.Tells s (fun _ => none) acts) (k : KeyPart)
    (ks : List KeyPart) (h : (put n k ks t).Clean s) :
    ((put n k ks t).node l kind).Tells s (t.node l kind).kindAt? (Key.actsFrom acts k ks) := by
  induction ks generalizing k t s l kind with
  | nil =>
    rw [put, pushNew] at h ⊢
    split at h
    · obtain rfl := clean_addFault_iff.1 (clean_push_iff.1 h).1
      exact .blind (rooted_under _ _)
    · next hfind => exact tells_push hfind (hn _ (clean_push_iff.1 h).2)
  | cons k' ks ih =>
    have hunseen : ∀ {c : Clash} {m : Node}, ((t.addFault c).push k m).Clean s →
        (((t.addFault c).push k m).node l kind).Tells s (t.node l kind).kindAt?
          (Key.actsFrom acts k (k' :: ks)) := by
      intro c m hm
      obtain rfl := clean_addFault_iff.1 (clean_push_iff.1 hm).1
      exact .blind (rooted_under _ _)
    rw [put] at h ⊢
    split at h
    · next old faults l' kind' entries hfind =>
      split at h
      · next himplied =>
        obtain ⟨others, -, hframe⟩ := clean_frame hfind s
        have hclean := clean_node.1 ((hframe _).1 h).2
        simp only [himplied, if_true]
        exact tells_setNewest hfind ((ih k' hclean).act rfl trivial)
      · next himplied =>
        simp only [himplied]
        exact hunseen h
    · exact hunseen h
    · next hfind =>
      have hclean := clean_node.1 (clean_push_iff.1 h).2
      exact tells_push hfind ((tells_empty rfl).trans (ih k' hclean))

end Contents

/-! ## Written values -/

namespace Node

variable {s : Sight} {faults : List Clash} {l : Location} {ofTables : Bool} {items : List Node}
  {acts : List (Address × Act)}

theorem kindAt?_concat (ns : List Node) (n : Node) (a : Address) :
    (Node.array faults l ofTables (ns ++ [n])).kindAt? (.index ns.length :: a) = n.kindAt? a := by
  simp [kindAt?]

/-- What is at an index depends on the item there alone. -/
theorem kindAt?_item_congr {items' : List Node} {i : Nat} (h : items[i]? = items'[i]?)
    (a : Address) :
    (Node.array faults l ofTables items).kindAt? (.index i :: a) =
      (Node.array faults l ofTables items').kindAt? (.index i :: a) := by
  simp [kindAt?, h]

/-- An array is made. -/
theorem tells_array {e : Act} (h : e.makes = .array ofTables) :
    (Node.array [] l ofTables []).Tells s (fun _ => none) [([], e)] := by
  have hafter : (Node.array [] l ofTables []).kindAt? = after (fun _ => none) [([], e)] := by
    funext a
    cases a with
    | nil => simp [after, h, kindAt?, kind]
    | cons x a => cases x <;> simp [after, List.lookup_cons, kindAt?]
  refine ⟨fun a _ => by rw [hafter], fun a _ => by rw [hafter]; exact id, ?_, trivial⟩
  cases e with
  | assign κ =>
    intro _
    rfl
  | name | extend =>
    intro _
    exact .inl rfl
  | imply | pass | element => trivial

/-- An array gets one more item. -/
theorem tells_concat {n : Node} (hn : n.Tells (s.within (.index items.length)) (fun _ => none) acts) :
    (Node.array faults l ofTables (items ++ [n])).Tells s
      (Node.array faults l ofTables items).kindAt? (under [.index items.length] acts) := by
  refine Tells.within (m := n) ?_ rfl (fun a => ?_) fun y a hy => ?_
  · simpa [kindAt?] using hn
  · exact kindAt?_concat items n a
  · cases y with
    | key name => rfl
    | index i =>
      have hne : i ≠ items.length := fun heq => hy (by rw [heq])
      refine kindAt?_item_congr ?_ a
      rcases Nat.lt_or_gt_of_ne hne with hlt | hgt
      · rw [List.getElem?_append_left hlt]
      · rw [List.getElem?_eq_none (by simp; omega), List.getElem?_eq_none (by omega)]

end Node

mutual

/-- The node of a value tells its acts. -/
theorem Expr.tells_node : ∀ (e : Expr) (s : Sight), e.node.Clean s →
    e.node.Tells s (fun _ => none) e.acts
  | .scalar l v, s, _ => by
      refine ⟨fun a _ => ?_, fun a _ => ?_, fun _ => rfl, trivial⟩
      · cases a with
        | nil => simp [Expr.node, Expr.acts, Node.kindAt?, Node.kind, after, Act.makes]
        | cons x a => cases x <;> simp [Expr.node, Expr.acts, Node.kindAt?, after, List.lookup_cons]
      · cases a with
        | nil =>
          intro _
          rfl
        | cons x a => simp [Expr.acts, after, List.lookup_cons]
  | .array l items, s, h => by
      rw [Expr.node] at h ⊢
      exact (Node.tells_array rfl).trans
        (Expr.tells_nodes items [] s fun i n hn => Node.clean_item h i hn)
  | .inlineTable l pairs, s, h => by
      rw [Expr.node] at h ⊢
      exact (Contents.tells_empty rfl).trans (Expr.tells_contents pairs .empty s (Contents.clean_node.1 h))

/-- The nodes of some items tell their acts behind other items. -/
theorem Expr.tells_nodes : ∀ (es : List Expr) (ns : List Node) (s : Sight) {l : Location},
    (∀ i, ∀ n ∈ Expr.nodes es, n.Clean (s.within (.index i))) →
    (Node.array [] l false (ns ++ Expr.nodes es)).Tells s (Node.array [] l false ns).kindAt?
      (Expr.itemsActs ns.length es)
  | [], ns, s, l, _ => by
      rw [Expr.nodes, List.append_nil]
      exact ⟨fun a _ => by simp [Expr.itemsActs], fun a _ => by simp [Expr.itemsActs], trivial⟩
  | e :: es, ns, s, l, h => by
      have hfirst : (Node.array [] l false (ns ++ [e.node])).Tells s
          (Node.array [] l false ns).kindAt? (under [.index ns.length] e.acts) :=
        Node.tells_concat (Expr.tells_node e _ (h ns.length e.node List.mem_cons_self))
      have hrest := Expr.tells_nodes es (ns ++ [e.node]) s (l := l)
        fun i n hn => h i n (List.mem_cons_of_mem _ hn)
      rw [List.append_assoc, List.length_append] at hrest
      exact hfirst.trans hrest

/-- Some pairs tell their acts. -/
theorem Expr.tells_contents : ∀ (ps : List (Key × Expr)) (t : Contents) (s : Sight) {l : Location}
    {kind : TableKind}, (Expr.contents ps t).Clean s →
    ((Expr.contents ps t).node l kind).Tells s (t.node l kind).kindAt? (Expr.pairsActs ps)
  | [], t, s, l, kind, _ =>
      ⟨fun a _ => by simp [Expr.pairsActs, Expr.contents],
        fun a _ => by simp [Expr.pairsActs, Expr.contents], trivial⟩
  | (k, e) :: ps, t, s, l, kind, h => by
      have hput : (t.put e.node k.head k.tail).Clean s := Contents.stays_contents ps s _ h
      exact (Contents.tells_put (Expr.tells_node e) k.head k.tail hput).trans
        (Expr.tells_contents ps _ s h)

end

end AuditSettings.Toml
