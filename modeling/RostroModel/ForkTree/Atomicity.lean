import RostroModel.ForkTree.Restriction

namespace ForkTree

open Node

variable {H N V E : Type}

def Fails {α : Type} (result : Except E α) : Prop :=
  ∃ e, result = .error e

@[simp]
theorem fails_error {α : Type} (e : E) : Fails (.error e : Except E α) :=
  ⟨e, rfl⟩

@[simp]
theorem not_fails_ok {α : Type} (a : α) : ¬Fails (.ok a : Except E α) :=
  nofun

@[simp]
theorem fails_map {α β : Type} (f : α → β) (result : Except E α) :
    Fails (result.map f) ↔ Fails result := by
  cases result <;> simp [Except.map]

theorem mem_of_findM? {p : Node H N V → Except E Bool} {nodes : List (Node H N V)}
    {node : Node H N V} (h : nodes.findM? p = .ok (some node)) : node ∈ nodes := by
  induction nodes
  case nil => cases h
  case cons a nodes hi =>
    rw [List.findM?] at h
    cases hp : p a <;> rw [hp] at h
    case error e => cases h
    case ok below =>
      cases below
      case false => exact List.mem_cons_of_mem _ (hi h)
      case true => cases h; exact List.mem_cons_self

theorem singleton_ne_iff (h : a ∈ nodes) : [a'] ≠ nodes ↔ nodes ≠ [a] ∨ a' ≠ a := by
  grind

theorem roots_ne_iff {roots : List (Node H N V)} {path : List Nat} {root root' : Node H N V}
    (h : nodeAt roots path = some root) (hs : root'.size ≤ root.size) :
    [root'] ≠ roots ↔ roots ≠ [root] ∨ root' ≠ root := by
  cases path
  case nil => cases h
  case cons i path =>
    constructor
    case mp =>
      intro hne
      by_contra hc
      rw [not_or, not_not, not_not] at hc
      exact hne (by rw [hc.1, hc.2])
    case mpr =>
      intro hor he
      obtain ⟨r, hr, hd⟩ := Option.bind_eq_some_iff.mp h
      subst he
      cases List.mem_singleton.mp (List.mem_of_getElem? hr)
      cases path
      case nil => cases hd; simp at hor
      case cons j path =>
        obtain ⟨child, hc, hd⟩ := Option.bind_eq_some_iff.mp hd
        have h1 := descend_size hd
        have h2 := size_le_of_mem (List.mem_of_getElem? hc)
        have h3 := size_eq root'
        omega

theorem finalizeRoot_eq_none [DecidableEq H] (hash : H) (t : ForkTree H N V) :
    t.finalizeRoot hash = none ↔ ∀ root ∈ t.roots, root.hash ≠ hash := by
  have hn : (∀ root ∈ t.roots, root.hash ≠ hash) ↔ t.roots.findIdx? (·.hash = hash) = none := by
    simp
  rw [hn, finalizeRoot]
  cases hi : t.roots.findIdx? (·.hash = hash)
  case none => simp
  case some i =>
    obtain ⟨hlt, -⟩ := List.findIdx?_eq_some_iff_getElem.mp hi
    simp [finalizeRootAt, List.getElem?_eq_getElem hlt]

section Retain

variable (retain : Node H N V → Except E Bool)

-- The roots are put back one by one, so the one whose query fails is missing.
theorem retainRoots_fails (nodes kept : List (Node H N V)) (changed : Bool) :
    Fails (retainRoots retain nodes kept changed).1 ↔ ∃ node ∈ nodes, Fails (retain node) := by
  induction nodes generalizing kept changed
  case nil => simp [retainRoots]
  case cons node nodes hi =>
    rw [retainRoots]
    cases hr : retain node
    case error e => simp [hr]
    case ok below => cases below <;> simp [hr, hi]

theorem retainRoots_size (nodes kept : List (Node H N V)) (changed : Bool)
    (h : Fails (retainRoots retain nodes kept changed).1) :
    sizes (retainRoots retain nodes kept changed).2 < sizes kept + sizes nodes := by
  induction nodes generalizing kept changed
  case nil => simp [retainRoots] at h
  case cons node nodes hi =>
    have hs := size_eq node
    rw [retainRoots] at h ⊢
    rw [sizes]
    cases hr : retain node
    case error e =>
      dsimp only
      omega
    case ok below =>
      cases below <;> rw [hr] at h
      case true =>
        have := hi _ _ h
        rw [sizes_append, sizes, sizes] at this
        dsimp only
        omega
      case false =>
        have := hi _ _ h
        dsimp only
        omega

theorem finishRetaining_loses (number : N) (t t' : ForkTree H N V) (data : Option V)
    (h : sizes nodes ≤ sizes t.roots) :
    Fails (finishRetaining t' number data (retainRoots retain nodes [] false)).1 ∧
      (finishRetaining t' number data (retainRoots retain nodes [] false)).2 ≠ t ↔
    ∃ node ∈ nodes, Fails (retain node) := by
  rw [← retainRoots_fails retain nodes [] false]
  have hs := retainRoots_size retain nodes [] false
  generalize retainRoots retain nodes [] false = r at hs ⊢
  obtain ⟨result, roots⟩ := r
  cases result
  case ok b => simp [finishRetaining]
  case error e =>
    have hlt := hs ⟨e, rfl⟩
    rw [sizes, Nat.zero_add] at hlt
    simp only [finishRetaining, fails_error, true_and, iff_true]
    rintro rfl
    exact absurd (lt_of_lt_of_le hlt h) (lt_irrefl _)

end Retain

variable [DecidableEq H] [LinearOrder N] (hash : H) (number : N)
variable (query : H → H → Except E Bool)

section Prune

-- `prune` walks from the new root down to the block, and from then on there is no way back: a query
-- that fails leaves the tree as it was only if all nodes that were met so far had no siblings.
inductive LosesBelow : Prop → Node H N V → Prop
  | walk {lost : Prop} {node} : lost →
    Fails (node.children.findM? (isUnfinalizedAncestor hash number query)) →
    LosesBelow lost node
  | keep {lost : Prop} {node child} :
    node.children.findM? (isUnfinalizedAncestor hash number query) = .ok none →
    child ∈ node.children → Fails (isKept hash number query child) → LosesBelow lost node
  | step {lost : Prop} {node child} :
    node.children.findM? (isUnfinalizedAncestor hash number query) = .ok (some child) →
    LosesBelow (lost ∨ node.children ≠ [child]) child → LosesBelow lost node

-- What is left of the children, given the one that the walk continues with.
def walkFrom (siblings removed removed' : List (Node H N V)) :
    Except E (Option (Node H N V)) → Except E Unit × List (Node H N V)
  | .error e => (.error e, siblings)
  | .ok none =>
    let (result, kept, _) := keepDescendents hash number query siblings [] removed
    (result, kept)
  | .ok (some child) =>
    let (result, child, _) := walk hash number query child removed'
    (result, [child])

theorem walkChildren_eq (siblings rest removed : List (Node H N V)) (idx : Nat) :
    ∃ removed', ((walkChildren hash number query siblings idx rest removed).1,
      (walkChildren hash number query siblings idx rest removed).2.1) =
      walkFrom hash number query siblings removed removed'
        (rest.findM? (isUnfinalizedAncestor hash number query)) := by
  induction rest generalizing idx
  case nil =>
    exact ⟨[], rfl⟩
  case cons child rest hi =>
    rw [walkChildren, List.findM?, isUnfinalizedAncestor]
    split_ifs
    · cases query child.hash hash
      case error e => exact ⟨[], rfl⟩
      case ok below =>
        cases below
        case true => exact ⟨_, rfl⟩
        case false => exact hi (idx + 1)
    · exact hi (idx + 1)

variable {hash number query} {lost : Prop} {node : Node H N V}

theorem losesBelow_iff : LosesBelow hash number query lost node ↔
    match node.children.findM? (isUnfinalizedAncestor hash number query) with
    | .error _ => lost
    | .ok none => ∃ child ∈ node.children, Fails (isKept hash number query child)
    | .ok (some child) => LosesBelow hash number query (lost ∨ node.children ≠ [child]) child := by
  constructor
  case mp =>
    rintro (⟨hl, e, hf⟩ | ⟨hf, hc, hk⟩ | ⟨hf, hl⟩) <;> rw [hf]
    case walk => exact hl
    case keep => exact ⟨_, hc, hk⟩
    case step => exact hl
  case mpr =>
    intro h
    cases hf : node.children.findM? (isUnfinalizedAncestor hash number query) <;> rw [hf] at h
    case error e => exact .walk h ⟨e, hf⟩
    case ok found =>
      cases found
      case none =>
        obtain ⟨child, hc, hk⟩ := h
        exact .keep hf hc hk
      case some child => exact .step hf h

theorem keepDescendents_loses (nodes removed : List (Node H N V)) :
    Fails (keepDescendents hash number query nodes [] removed).1 ∧
      (lost ∨ (keepDescendents hash number query nodes [] removed).2.1 ≠ nodes) ↔
    ∃ child ∈ nodes, Fails (isKept hash number query child) := by
  obtain ⟨hr, hk⟩ := keepDescendents_eq hash number query nodes [] removed false
  rw [hr, hk, fails_map, ← retainRoots_fails _ nodes [] false]
  constructor
  case mp => exact And.left
  case mpr =>
    intro hf
    refine ⟨hf, .inr fun he => ?_⟩
    have hs := retainRoots_size _ nodes [] false hf
    rw [he, sizes] at hs
    omega

variable (hash number query)

theorem walk_loses (node : Node H N V) : ∀ (lost : Prop) (removed : List (Node H N V)),
    Fails (walk hash number query node removed).1 ∧
      (lost ∨ (walk hash number query node removed).2.1 ≠ node) ↔
    LosesBelow hash number query lost node := by
  induction node using Node.induction
  case h h n d children hi =>
    intro lost removed
    obtain ⟨removed', hw⟩ := walkChildren_eq hash number query children children removed 0
    obtain ⟨h1, h2⟩ := Prod.ext_iff.mp hw
    dsimp only at h1 h2
    have hne {cs : List (Node H N V)} : Node.mk h n d cs ≠ .mk h n d children ↔
        cs ≠ children := by simp
    rw [walk, losesBelow_iff, children_mk]
    dsimp only
    rw [h1, h2, hne]
    cases hf : children.findM? (isUnfinalizedAncestor hash number query)
    case error e => simp [walkFrom]
    case ok found =>
      cases found
      case none => exact keepDescendents_loses children removed
      case some child =>
        have hc := mem_of_findM? hf
        dsimp only
        rw [← hi child hc _ removed']
        simp only [walkFrom, singleton_ne_iff hc, or_assoc]

theorem walk_size (node : Node H N V) : ∀ removed,
    (walk hash number query node removed).2.1.size ≤ node.size := by
  induction node using Node.induction
  case h h n d children hi =>
    intro removed
    obtain ⟨removed', hw⟩ := walkChildren_eq hash number query children children removed 0
    have hc := congrArg (sizes ·.2) hw
    rw [walk, size, size, Nat.add_le_add_iff_right]
    refine le_of_eq_of_le hc ?_
    cases hf : children.findM? (isUnfinalizedAncestor hash number query)
    case error e => exact Nat.le_refl _
    case ok found =>
      cases found
      case none =>
        exact sizes_le_of_sublist
          (Restricts.keepDescendents_sublist hash number query children [] removed)
      case some child =>
        have hm := mem_of_findM? hf
        exact (hi child hm removed').trans (size_le_of_mem hm)

def PruneLoses (predicate : V → Bool) (t : ForkTree H N V) : Prop :=
  ∃ path root, t.findNodeIndexWhere hash number query predicate = .ok (some path) ∧
    nodeAt t.roots path = some root ∧ LosesBelow hash number query (t.roots ≠ [root]) root

theorem prune_loses (predicate : V → Bool) (t : ForkTree H N V) :
    Fails (t.prune hash number query predicate).1 ∧ (t.prune hash number query predicate).2 ≠ t ↔
    PruneLoses hash number query predicate t := by
  rw [prune, PruneLoses]
  cases hs : t.findNodeIndexWhere hash number query predicate
  case error e => simp
  case ok path =>
    cases path
    case none => simp
    case some path =>
      cases hn : nodeAt t.roots path
      case none => simp [hn]
      case some root =>
        have hsize := walk_size hash number query root (detach t.roots path)
        have hw := walk_loses hash number query root (t.roots ≠ [root]) (detach t.roots path)
        rw [← roots_ne_iff hn hsize] at hw
        have hone : (∃ path' root', Except.ok (ε := E) (some path) = .ok (some path') ∧
            nodeAt t.roots path' = some root' ∧
            LosesBelow hash number query (t.roots ≠ [root']) root') ↔
            LosesBelow hash number query (t.roots ≠ [root]) root := by
          simp [hn]
        rw [hone, ← hw]
        dsimp only
        rw [hn]
        dsimp only
        generalize walk hash number query root (detach t.roots path) = r
        obtain ⟨result, root', removed⟩ := r
        cases result
        case error e => simp [ForkTree.ext_iff]
        case ok      => simp

end Prune

section Finalize

-- No root is the block or an ancestor of it, and then the query of some root fails.
def FinalizeLoses (t : ForkTree H N V) : Prop :=
  ¬t.reverts number ∧ (∀ root ∈ t.roots, root.hash ≠ hash) ∧
    t.roots.anyM (isUnfinalizedAncestor hash number query) = .ok false ∧
    ∃ root ∈ t.roots, Fails (isFinalizedBranch hash number query root)

theorem finalize_loses (t : ForkTree H N V) :
    Fails (t.finalize hash number query).1 ∧ (t.finalize hash number query).2 ≠ t ↔
    FinalizeLoses hash number query t := by
  rw [finalize, FinalizeLoses, ← finalizeRoot_eq_none]
  split_ifs with hr
  case pos => simp [hr]
  case neg =>
    cases t.finalizeRoot hash
    case some r => simp
    case none =>
      cases t.roots.anyM (isUnfinalizedAncestor hash number query)
      case error e => simp
      case ok ancestor =>
        cases ancestor
        case true => simp
        case false =>
          rw [finishRetaining_loses _ _ _ _ _ (Nat.le_refl _)]
          simp [hr]

-- The roots that are left after the first loop of `finalize_with_descendent_if`.
def openedRoots (t : ForkTree H N V) (found : Option (Node H N V)) : List (Node H N V) :=
  found.elim t.roots Node.children

def FinalizeWithDescendentIfLoses (predicate : V → Bool) (t : ForkTree H N V) : Prop :=
  ¬t.reverts number ∧ ∃ found,
    findFinalizedRoot hash number query predicate t.roots = .ok found ∧
    ∃ root ∈ openedRoots t found, Fails (isRetained hash number query root)

theorem finalizeWithDescendentIf_loses (predicate : V → Bool) (t : ForkTree H N V) :
    Fails (t.finalizeWithDescendentIf hash number query predicate).1 ∧
      (t.finalizeWithDescendentIf hash number query predicate).2 ≠ t ↔
    FinalizeWithDescendentIfLoses hash number query predicate t := by
  rw [finalizeWithDescendentIf, FinalizeWithDescendentIfLoses]
  split_ifs with hr
  case pos => simp [hr]
  case neg =>
    cases hf : findFinalizedRoot hash number query predicate t.roots
    case error e => simp
    case ok found =>
      cases found
      case none =>
        rw [finishRetaining_loses _ _ _ _ _ (Nat.le_refl _)]
        simp [hr, openedRoots]
      case some node =>
        have hm := Restricts.findFinalizedRoot_mem hash number query hf
        have h1 := size_le_of_mem hm
        have h2 := size_eq node
        rw [finishRetaining_loses _ _ _ _ _ (by omega)]
        simp [hr, openedRoots]

-- The loop of `finalize_with_ancestors` drops and opens roots until it meets one whose query fails.
-- This is only harmless if all roots that were met before are kept.
inductive LosesRoots : Prop → List (Node H N V) → Nat → Prop
  | fails {lost : Prop} {roots idx root} : lost → roots[idx]? = some root →
    Fails (relationOf hash number query root) → LosesRoots lost roots idx
  | skip {lost : Prop} {roots idx root} : roots[idx]? = some root →
    relationOf hash number query root = .ok .descendant →
    LosesRoots lost roots (idx + 1) → LosesRoots lost roots idx
  | opened {lost : Prop} {roots idx root} : roots[idx]? = some root →
    relationOf hash number query root = .ok .ancestor →
    LosesRoots True (swapRemove roots idx ++ root.children) idx → LosesRoots lost roots idx
  | dropped {lost : Prop} {roots idx root} : roots[idx]? = some root →
    relationOf hash number query root = .ok .unrelated →
    LosesRoots True (swapRemove roots idx) idx → LosesRoots lost roots idx

theorem losesRoots_iff {lost : Prop} {roots : List (Node H N V)} {idx : Nat} :
    LosesRoots hash number query lost roots idx ↔ ∃ root, roots[idx]? = some root ∧
      match relationOf hash number query root with
      | .error _ => lost
      | .ok .finalized => False
      | .ok .descendant => LosesRoots hash number query lost roots (idx + 1)
      | .ok .ancestor =>
        LosesRoots hash number query True (swapRemove roots idx ++ root.children) idx
      | .ok .unrelated => LosesRoots hash number query True (swapRemove roots idx) idx := by
  constructor
  case mp =>
    rintro (⟨hl, hr, e, hrel⟩ | ⟨hr, hrel, hl⟩ | ⟨hr, hrel, hl⟩ | ⟨hr, hrel, hl⟩)
    all_goals exact ⟨_, hr, by rw [hrel]; exact hl⟩
  case mpr =>
    rintro ⟨root, hr, h⟩
    cases hrel : relationOf hash number query root <;> rw [hrel] at h
    case error e => exact .fails h hr ⟨e, hrel⟩
    case ok relation =>
      cases relation
      case finalized => exact h.elim
      case descendant => exact .skip hr hrel h
      case ancestor => exact .opened hr hrel h
      case unrelated => exact .dropped hr hrel h

theorem openAncestors_size (passes : Nat) (t : ForkTree H N V) (idx : Nat) (changed : Bool) :
    sizes (openAncestors hash number query passes t idx changed).2.roots ≤ sizes t.roots := by
  induction passes generalizing t idx changed
  case zero => exact Nat.le_refl _
  case succ passes hi =>
    rw [openAncestors]
    cases hr : t.roots[idx]?
    case none => exact Nat.le_refl _
    case some root =>
      have hs := sizes_perm (swapRemove_perm hr)
      rw [sizes] at hs
      have hsize := size_eq root
      dsimp only
      cases relationOf hash number query root
      case error e => exact Nat.le_refl _
      case ok relation =>
        cases relation
        case finalized =>
          dsimp only
          omega
        case descendant => exact hi t (idx + 1) changed
        case ancestor =>
          refine (hi { t with roots := _ } idx true).trans ?_
          rw [sizes_append]
          omega
        case unrelated =>
          refine (hi { t with roots := _ } idx true).trans ?_
          dsimp only
          omega

theorem openAncestors_loses (passes : Nat) (t : ForkTree H N V) (idx : Nat) (changed : Bool)
    (lost : Prop) (h : sizes t.roots - idx < passes) :
    Fails (openAncestors hash number query passes t idx changed).1 ∧
      (lost ∨ (openAncestors hash number query passes t idx changed).2 ≠ t) ↔
    LosesRoots hash number query lost t.roots idx := by
  induction passes generalizing t idx changed lost
  case zero => exact absurd h (Nat.not_lt_zero _)
  case succ passes hi =>
    rw [openAncestors, losesRoots_iff]
    cases hr : t.roots[idx]?
    case none => simp
    case some root =>
      have hs : sizes t.roots = root.size + sizes (swapRemove t.roots idx) :=
        sizes_perm (swapRemove_perm hr)
      have hlt := (List.getElem?_eq_some_iff.mp hr).1
      have hlen := length_le_sizes t.roots
      have hsize := size_eq root
      -- The tree shrinks with every root that is taken out of it.
      have hout (roots) (hle : sizes roots < sizes t.roots) :
          Fails (openAncestors hash number query passes { t with roots } idx true).1 ∧
            (lost ∨ (openAncestors hash number query passes { t with roots } idx true).2 ≠ t) ↔
          LosesRoots hash number query True roots idx := by
        rw [← hi { t with roots } idx true True (by dsimp only; omega)]
        have hne : (openAncestors hash number query passes { t with roots } idx true).2 ≠ t := by
          intro he
          have := openAncestors_size hash number query passes { t with roots } idx true
          rw [he] at this
          exact absurd (lt_of_lt_of_le hle this) (lt_irrefl _)
        simp [hne]
      simp only [Option.some.injEq, exists_eq_left']
      cases relationOf hash number query root
      case error e => simp
      case ok relation =>
        cases relation
        case finalized  => simp
        case descendant => exact hi t (idx + 1) changed lost (by omega)
        case ancestor   => exact hout _ (by rw [sizes_append]; omega)
        case unrelated  => exact hout _ (by omega)

def FinalizeWithAncestorsLoses (t : ForkTree H N V) : Prop :=
  ¬t.reverts number ∧ (∀ root ∈ t.roots, root.hash ≠ hash) ∧
    LosesRoots hash number query False t.roots 0

theorem finalizeWithAncestors_loses (t : ForkTree H N V) :
    Fails (t.finalizeWithAncestors hash number query).1 ∧
      (t.finalizeWithAncestors hash number query).2 ≠ t ↔
    FinalizeWithAncestorsLoses hash number query t := by
  rw [finalizeWithAncestors, FinalizeWithAncestorsLoses, ← finalizeRoot_eq_none]
  split_ifs with hr
  case pos => simp [hr]
  case neg =>
    cases t.finalizeRoot hash
    case some r => simp
    case none =>
      have hl := openAncestors_loses hash number query (sizes t.roots + 1) t 0 false False
        (by omega)
      rw [false_or] at hl
      simp only [hl, hr]
      simp

end Finalize

theorem importNode_keeps (data : V) (t : ForkTree H N V)
    (h : Fails (t.importNode hash number query data).1) :
    (t.importNode hash number query data).2 = t := by
  rw [importNode] at h ⊢
  split_ifs at h ⊢
  case pos => rfl
  case neg =>
    cases hs : t.findNodeIndexWhere hash number query (fun _ => true)
    case error e => rfl
    case ok path =>
      rw [hs] at h
      dsimp only at h ⊢
      split_ifs at h ⊢
      all_goals first | rfl | simp at h

section Calls

inductive Call (H N V E : Type)
  | importNode (hash : H) (number : N) (query : H → H → Except E Bool) (data : V)
  | prune (hash : H) (number : N) (query : H → H → Except E Bool) (predicate : V → Bool)
  | finalize (hash : H) (number : N) (query : H → H → Except E Bool)
  | finalizeWithAncestors (hash : H) (number : N) (query : H → H → Except E Bool)
  | finalizeWithDescendentIf (hash : H) (number : N) (query : H → H → Except E Bool)
    (predicate : V → Bool)

namespace Call

-- The result without its value.
def run (t : ForkTree H N V) : Call H N V E → Except (Error E) Unit × ForkTree H N V
  | importNode h n q data => (t.importNode h n q data).map (·.map fun _ => ()) id
  | prune h n q predicate => (t.prune h n q predicate).map (·.map fun _ => ()) id
  | finalize h n q => (t.finalize h n q).map (·.map fun _ => ()) id
  | finalizeWithAncestors h n q =>
    (t.finalizeWithAncestors h n q).map (·.map fun _ => ()) id
  | finalizeWithDescendentIf h n q predicate =>
    (t.finalizeWithDescendentIf h n q predicate).map (·.map fun _ => ()) id

-- A query fails when the tree is not what it was any more.
def FailsLate (t : ForkTree H N V) : Call H N V E → Prop
  | importNode .. => False
  | prune h n q predicate => PruneLoses h n q predicate t
  | finalize h n q => FinalizeLoses h n q t
  | finalizeWithAncestors h n q => FinalizeWithAncestorsLoses h n q t
  | finalizeWithDescendentIf h n q predicate => FinalizeWithDescendentIfLoses h n q predicate t

theorem fails_and_changes_iff (t : ForkTree H N V) (call : Call H N V E) :
    Fails (call.run t).1 ∧ (call.run t).2 ≠ t ↔ call.FailsLate t := by
  cases call <;> simp only [run, Prod.map, fails_map, FailsLate]
  case prune => exact prune_loses ..
  case finalize => exact finalize_loses ..
  case finalizeWithAncestors => exact finalizeWithAncestors_loses ..
  case finalizeWithDescendentIf => exact finalizeWithDescendentIf_loses ..
  case importNode =>
    rw [iff_false, not_and, not_not]
    apply importNode_keeps

theorem error_atomic_iff (t : ForkTree H N V) (call : Call H N V E) :
    (∀ e, (call.run t).1 = .error e → (call.run t).2 = t) ↔ ¬call.FailsLate t := by
  rw [← fails_and_changes_iff, not_and, not_not]
  exact ⟨fun h ⟨e, he⟩ => h e he, fun h e he => h ⟨e, he⟩⟩

-- The block is below both roots, but the query for the second one fails. It is lost.
theorem finalize_not_atomic :
    ¬∀ (t : ForkTree Nat Nat Unit) (call : Call Nat Nat Unit Unit) (e : Error Unit),
      (call.run t).1 = .error e → (call.run t).2 = t := by
  intro h
  have he := h { roots := [.mk 1 5 () [], .mk 2 5 () []] }
    (.finalize 0 1 fun _ b => if b = 2 then .error () else .ok true) (.client ()) rfl
  exact absurd (congrArg (·.roots.length) he) (by decide)

end Call
end Calls
end ForkTree
