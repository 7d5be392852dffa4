import RostroModel.Headers.Ancestors

namespace Headers

open EStateM BlockTree

variable {H : Type} {tree : BlockTree H}

namespace BlockTree

-- The data of the block. The link leads to some ancestor, whichever query has written it.
structure Describes (tree : BlockTree H) (m : CachedHeaderMetadata H) : Prop where
  header : tree.header m.hash = some ⟨m.number, m.parent, m.stateRoot⟩
  ancestor : ∀ p, tree.header m.parent = some p → tree.Above m.ancestor m.hash ∧ m.ancestor ≠ m.hash

end BlockTree

variable {M : Type} [CacheMap M H (CachedHeaderMetadata H)]

-- What is cached is right.
def Sound (tree : BlockTree H) (cache : M) : Prop :=
  CacheMap.All (fun hash m => m.hash = hash ∧ tree.Describes m) cache

variable (M) in
abbrev Right {α : Type} (tree : BlockTree H) (x : Query H M α) (P : α → Prop) (E : Error H → Prop) :
    Prop :=
  Triple (Sound tree) x P E

variable {E : Error H → Prop} {a b : H} {rounds : Nat} {m one two : CachedHeaderMetadata H}

theorem describes_ofHeader (hh : tree.header a = some h) : tree.Describes (.ofHeader a h) := by
  refine ⟨hh, fun p hp => ⟨above_parent hh hp, fun he => ?_⟩⟩
  have hne : h.parent = a := he
  have hp : tree.header h.parent = some p := hp
  have hn := number_parent hh hp
  rw [hne, hh] at hp
  cases hp
  omega

theorem headerMetadata_spec (hE : tree.header a = none → E (.unknownBlock a)) :
    Right M tree (headerMetadata tree.header a) (fun m => m.hash = a ∧ tree.Describes m) E := by
  have hlookup : Right M tree (lookup a)
      (fun r => ∀ m, r = some m → m.hash = a ∧ tree.Describes m) E :=
    fun cache hc => ⟨(CacheMap.All.get hc a).1, (CacheMap.All.get hc a).2⟩
  refine hlookup.bind fun r hr => ?_
  cases r
  case some m => exact .pure (hr m rfl)
  case none =>
    cases hh : tree.header a
    case none => exact .throw (hE hh)
    case some h =>
      have hd := describes_ofHeader hh
      refine Triple.bind (P := fun _ => True) ?_ fun _ _ => .pure ⟨rfl, hd⟩
      exact .modify (fun cache hc => CacheMap.All.insert hc ⟨rfl, hd⟩) trivial

theorem headerMetadata_known (hh : tree.header a = some h) :
    Right M tree (headerMetadata tree.header a) (fun m => m.hash = a ∧ tree.Describes m) E :=
  headerMetadata_spec fun hn => by simp [hh] at hn

theorem eq_of_describes (hh : tree.header a = some h) (ha : m.hash = a)
    (hm : tree.Describes m) : h = ⟨m.number, m.parent, m.stateRoot⟩ := by
  rw [← ha, hm.header] at hh
  exact (Option.some.inj hh).symm

theorem parentMetadata_spec (hm : tree.Describes m) (hp : tree.header m.parent = some p) :
    Right M tree (headerMetadata tree.header m.parent)
      (fun m' => tree.Describes m' ∧ m'.hash = m.parent ∧ m.number = m'.number + 1) E := by
  refine (headerMetadata_known hp).mono fun m' ⟨hhash, hd⟩ => ⟨hd, hhash, ?_⟩
  have hnum := number_parent hm.header hp
  rwa [eq_of_describes hp hhash hd] at hnum

-- Jumping over ancestor links does not lose a common ancestor with a block of the given number.
theorem followAncestors_spec (hm : tree.Describes m) (hb : tree.Describes two)
    (hr : m.number < rounds ∨ E .outOfRounds) :
    Right M tree (followAncestors tree.header two.number rounds m)
      (fun m' => tree.Describes m' ∧ m'.number ≤ m.number ∧ ∀ d,
        tree.Above d m'.hash ∧ tree.Above d two.hash ↔
          tree.Above d m.hash ∧ tree.Above d two.hash) E := by
  induction rounds generalizing m
  case zero => exact .throw (hr.resolve_left (by omega))
  case succ rounds hi =>
    refine .ite (fun hlt => ?_) fun _ => .pure ⟨hm, Nat.le_refl _, fun d => Iff.rfl⟩
    obtain ⟨p, hp⟩ := exists_parent_of_lt hm.header hb.header hlt
    obtain ⟨habove, hne⟩ := hm.ancestor p hp
    obtain ⟨ha, hanc, -⟩ := habove.header hm.header
    refine (headerMetadata_known hanc).bind fun m' ⟨hhash, hd⟩ => .ite (fun hle => ?_) fun _ =>
      .pure ⟨hm, Nat.le_refl _, fun d => Iff.rfl⟩
    rw [← hhash] at habove hne
    have hnum : m'.number < m.number := by
      by_contra hge
      exact hne (habove.eq_of_number hm.header hd.header (by simpa using hge))
    refine (hi hd (hr.imp_left (by omega))).mono fun m'' ⟨hd'', hn, hc⟩ =>
      ⟨hd'', by omega, fun d => ?_⟩
    rw [hc d, common_of_above hm.header hd.header habove hb.header hle]

variable [DecidableEq H]

theorem followParents_spec (hm1 : tree.Describes one) (hm2 : tree.Describes two)
    (hr : one.number + two.number < rounds ∨ E .outOfRounds) :
    Right M tree (followParents tree.header rounds one two)
      (fun m => tree.Describes m ∧ tree.IsLowestCommonAncestor one.hash two.hash m.hash) E := by
  induction rounds generalizing one two
  case zero => exact .throw (hr.resolve_left (by omega))
  case succ rounds hi =>
    refine .ite (fun heq => .pure ⟨hm1, fun d => by rw [← heq, and_self]⟩) fun heq =>
      .ite (fun hlt => ?_) fun hlt => ?_
    · obtain ⟨p, hp⟩ := exists_parent_of_lt hm1.header hm2.header hlt
      refine (parentMetadata_spec hm1 hp).bind fun m ⟨hd, hhash, hnum⟩ => ?_
      refine (hi hd hm2 (hr.imp_left (by omega))).mono fun m' ⟨hd', hc⟩ => ⟨hd', fun d => ?_⟩
      rw [← hc d, hhash]
      exact (common_of_parent hm1.header hp hm2.header (Nat.le_of_lt hlt) heq d).symm
    · have hle : one.number ≤ two.number := Nat.le_of_not_lt hlt
      obtain ⟨p, hp⟩ := exists_parent_of_ne hm2.header hm1.header hle (Ne.symm heq)
      refine (parentMetadata_spec hm2 hp).bind fun m ⟨hd, hhash, hnum⟩ => ?_
      refine (hi hm1 hd (hr.imp_left (by omega))).mono fun m' ⟨hd', hc⟩ => ⟨hd', fun d => ?_⟩
      rw [← hc d, hhash, and_comm]
      exact (common_of_parent hm2.header hp hm1.header hle (Ne.symm heq) d).symm.trans and_comm

omit [DecidableEq H] in
theorem updateAncestor_spec (hm : tree.Describes m) (hc : tree.Describes one)
    (ha : tree.Above one.hash m.hash) : Right M tree (updateAncestor m one) (fun _ => True) E := by
  rw [updateAncestor]
  split_ifs with hlt
  · refine .modify (fun cache hs =>
      CacheMap.All.insert hs ⟨rfl, hm.header, fun p _ => ⟨ha, fun he => ?_⟩⟩) trivial
    have hh := hc.header
    have he : one.hash = m.hash := he
    rw [he, hm.header] at hh
    have hn := congrArg Header.number (Option.some.inj hh)
    simp only at hn
    omega
  · exact .pure trivial

-- The result of a query for the common ancestor.
def Answers (tree : BlockTree H) (a b : H) (r : HashAndNumber H) : Prop :=
  tree.IsLowestCommonAncestor a b r.hash ∧ ∃ h, tree.header r.hash = some h ∧ h.number = r.number

theorem lowestCommonAncestor_spec (h1 : tree.header a = some ha)
    (h2 : tree.header b = some hb) (hr : ha.number + hb.number < rounds ∨ E .outOfRounds) :
    Right M tree (lowestCommonAncestor tree.header rounds a b) (Answers tree a b) E := by
  refine (headerMetadata_known h1).bind fun one ⟨hone, hd1⟩ => ?_
  obtain rfl := eq_of_describes h1 hone hd1
  subst hone
  refine .ite (fun hp => ?_) fun _ => ?_
  · subst hp
    have hnum := number_parent h1 h2
    refine .pure ⟨fun d => and_iff_right_of_imp (above_parent h1 h2).trans, hb, h2, ?_⟩
    simp only at hnum ⊢
    omega
  refine (headerMetadata_known h2).bind fun two ⟨htwo, hd2⟩ => ?_
  obtain rfl := eq_of_describes h2 htwo hd2
  subst htwo
  refine .ite (fun hp => ?_) fun _ => ?_
  · have habove : tree.Above two.parent two.hash := above_parent h2 ((congrArg _ hp).trans h1)
    rw [hp] at habove
    exact .pure ⟨fun d => and_iff_left_of_imp habove.trans, _, h1, rfl⟩
  refine (followAncestors_spec hd1 hd2 (hr.imp_left (by simp only; omega))).bind
    fun one' ⟨hd1', hn1, hc1⟩ => ?_
  refine (followAncestors_spec hd2 hd1' (hr.imp_left (by simp only; omega))).bind
    fun two' ⟨hd2', hn2, hc2⟩ => ?_
  refine (followParents_spec hd1' hd2' (hr.imp_left (by simp only; omega))).bind
    fun m ⟨hd, hc⟩ => ?_
  have hlca : tree.IsLowestCommonAncestor one.hash two.hash m.hash := by
    intro d
    rw [← hc d, ← hc1 d, and_comm, ← hc2 d, and_comm]
  obtain ⟨hm1, hm2⟩ := (hlca m.hash).mpr (.refl _)
  refine (updateAncestor_spec hd1 hd hm1).bind fun _ _ => ?_
  refine (updateAncestor_spec hd2 hd hm2).bind fun _ _ => ?_
  exact .pure ⟨hlca, _, hd.header, rfl⟩

omit [DecidableEq H] in
theorem collectDownTo_spec (hm : tree.Describes m) (hb : tree.Describes two)
    (hp : tree.Path m.hash a branch) (hr : m.number < rounds ∨ E .outOfRounds) :
    Right M tree (collectDownTo tree.header two.number rounds m branch)
      (fun r => tree.Describes r.1 ∧ tree.Path r.1.hash a r.2 ∧
        r.1.number = min m.number two.number ∧ ∀ d,
        tree.Above d r.1.hash ∧ tree.Above d two.hash ↔
          tree.Above d m.hash ∧ tree.Above d two.hash) E := by
  induction rounds generalizing m branch
  case zero => exact .throw (hr.resolve_left (by omega))
  case succ rounds hi =>
    refine .ite (fun hlt => ?_) fun hlt => .pure ⟨hm, hp, by simp only; omega, fun d => Iff.rfl⟩
    obtain ⟨p, hpar⟩ := exists_parent_of_lt hm.header hb.header hlt
    refine (parentMetadata_spec hm hpar).bind fun m' ⟨hd, hhash, hnum⟩ => ?_
    have hp' : tree.Path m'.hash a (branch ++ [m.hashAndNumber]) := hhash ▸ hp.snoc hm.header hpar
    refine (hi hd hp' (hr.imp_left (by omega))).mono fun r ⟨hd', hpath, hn, hc⟩ => ?_
    refine ⟨hd', hpath, by omega, fun d => ?_⟩
    rw [hc d, hhash]
    obtain rfl := eq_of_describes hpar hhash hd
    exact common_of_above hm.header hpar (above_parent hm.header hpar) hb.header
      (by simp only; omega) d

theorem collectBoth_spec (hm1 : tree.Describes one)
    (hm2 : tree.Describes two) (hn : one.number = two.number)
    (hp1 : tree.Path one.hash a fromBranch) (hp2 : tree.Path two.hash b toBranch)
    (hr : one.number < rounds ∨ E .outOfRounds) :
    Right M tree (collectBoth tree.header rounds one two fromBranch toBranch)
      (fun r => tree.Describes r.1 ∧ tree.IsLowestCommonAncestor one.hash two.hash r.1.hash ∧
        tree.Path r.1.hash a r.2.1 ∧ tree.Path r.1.hash b r.2.2) E := by
  induction rounds generalizing one two fromBranch toBranch
  case zero => exact .throw (hr.resolve_left (by omega))
  case succ rounds hi =>
    refine .ite (fun heq => .pure ⟨hm2, fun d => by rw [← heq, and_self], heq ▸ hp1, hp2⟩)
      fun heq => ?_
    obtain ⟨p2, hpar2⟩ := exists_parent_of_ne hm2.header hm1.header (Nat.le_of_eq hn) heq
    obtain ⟨p1, hpar1⟩ := exists_parent_of_ne hm1.header hm2.header
      (Nat.le_of_eq hn.symm) (Ne.symm heq)
    refine (parentMetadata_spec hm2 hpar2).bind fun two' ⟨hd2, htwo, hn2⟩ => ?_
    refine (parentMetadata_spec hm1 hpar1).bind fun one' ⟨hd1, hone, hn1⟩ => ?_
    have hp1' : tree.Path one'.hash a (fromBranch ++ [one.hashAndNumber]) :=
      hone ▸ hp1.snoc hm1.header hpar1
    have hp2' : tree.Path two'.hash b (toBranch ++ [two.hashAndNumber]) :=
      htwo ▸ hp2.snoc hm2.header hpar2
    refine (hi hd1 hd2 (by omega) hp1' hp2' (hr.imp_left (by omega))).mono
      fun r ⟨hd, hc, hpath⟩ => ?_
    refine ⟨hd, fun d => ?_, hpath⟩
    -- First the one block moves up, then the other, which is above it now.
    obtain rfl := eq_of_describes hpar2 htwo hd2
    have hne : one.hash ≠ two.parent := by
      intro he
      rw [← he, hm1.header] at hpar2
      have := congrArg Header.number (Option.some.inj hpar2)
      simp only at this
      omega
    rw [← hc d, hone, htwo]
    calc tree.Above d one.hash ∧ tree.Above d two.hash
        ↔ tree.Above d one.hash ∧ tree.Above d two.parent := by
          rw [and_comm, ← common_of_parent hm2.header hpar2 hm1.header (Nat.le_of_eq hn) heq,
            and_comm]
      _ ↔ tree.Above d one.parent ∧ tree.Above d two.parent :=
          (common_of_parent hm1.header hpar1 hpar2 (by simp only; omega) hne d).symm

-- The route between two blocks.
structure Connects (tree : BlockTree H) (a b : H) (r : TreeRoute H) (c : HashAndNumber H) :
    Prop where
  answers : Answers tree a b c
  common : r.commonBlock = some c
  retracted : tree.Path c.hash a r.retracted
  enacted : tree.Path c.hash b r.enacted.reverse

theorem treeRoute_spec (h1 : tree.header a = some ha)
    (h2 : tree.header b = some hb) (hr : ha.number + hb.number < rounds ∨ E .outOfRounds) :
    Right M tree (treeRoute tree.header rounds a b) (fun r => ∃ c, Connects tree a b r c) E := by
  refine (headerMetadata_known h1).bind fun one ⟨hone, hd1⟩ => ?_
  refine (headerMetadata_known h2).bind fun two ⟨htwo, hd2⟩ => ?_
  obtain rfl := eq_of_describes h1 hone hd1
  obtain rfl := eq_of_describes h2 htwo hd2
  subst hone htwo
  refine (collectDownTo_spec hd2 hd1 .refl (hr.imp_left (by simp only; omega))).bind
    fun ⟨two', toBranch⟩ ⟨hd2', hp2, hn2, hc2⟩ => ?_
  refine (collectDownTo_spec hd1 hd2' .refl (hr.imp_left (by simp only; omega))).bind
    fun ⟨one', fromBranch⟩ ⟨hd1', hp1, hn1, hc1⟩ => ?_
  simp only at hn1 hn2 hd1' hd2' hp1 hp2 hc1 hc2
  refine (collectBoth_spec hd1' hd2' (by omega) hp1 hp2 (hr.imp_left (by simp only; omega))).bind
    fun ⟨m, fromBranch', toBranch'⟩ ⟨hd, hc, hpath1, hpath2⟩ => ?_
  refine .pure ⟨m.hashAndNumber, ⟨fun d => ?_, _, hd.header, rfl⟩, ?_, ?_, ?_⟩
  · rw [CachedHeaderMetadata.hashAndNumber, ← hc d, hc1 d, and_comm, ← hc2 d, and_comm]
  · simp [TreeRoute.commonBlock]
  · simpa [TreeRoute.retracted, CachedHeaderMetadata.hashAndNumber] using hpath1
  · simpa [TreeRoute.enacted, CachedHeaderMetadata.hashAndNumber, List.drop_append,
      List.drop_eq_nil_of_le] using hpath2

-- What may be asked of the backend, with any hashes.
inductive Call (H : Type)
  | lowestCommonAncestor (rounds : Nat) (idOne idTwo : H)
  | treeRoute (rounds : Nat) (idFrom idTo : H)
  | headerMetadata (hash : H)
  | removeHeaderMetadata (hash : H)

def perform (header : H → Option (Header H)) (cache : M) : Call H → M
  | .lowestCommonAncestor rounds idOne idTwo =>
    finalState (lowestCommonAncestor header rounds idOne idTwo) cache
  | .treeRoute rounds idFrom idTo => finalState (treeRoute header rounds idFrom idTo) cache
  | .headerMetadata hash => finalState (Headers.headerMetadata header hash) cache
  | .removeHeaderMetadata hash => CacheMap.remove cache hash

theorem lowestCommonAncestor_keeps (a b : H) :
    Right M tree (lowestCommonAncestor tree.header rounds a b) (fun _ => True) fun _ => True := by
  cases h1 : tree.header a
  case none =>
    exact (headerMetadata_spec fun _ => trivial).bind fun m ⟨ha, hm⟩ => by
      simp [← ha, hm.header] at h1
  case some ha =>
    cases h2 : tree.header b
    case some hb => exact (lowestCommonAncestor_spec h1 h2 (.inr trivial)).mono fun _ _ => trivial
    case none =>
      refine (headerMetadata_spec fun _ => trivial).bind fun one _ => ?_
      split_ifs
      · exact .pure trivial
      · exact (headerMetadata_spec fun _ => trivial).bind fun m ⟨hb, hm⟩ => by
          simp [← hb, hm.header] at h2

theorem treeRoute_keeps (a b : H) :
    Right M tree (treeRoute tree.header rounds a b) (fun _ => True) fun _ => True := by
  cases h1 : tree.header a
  case none =>
    exact (headerMetadata_spec fun _ => trivial).bind fun m ⟨ha, hm⟩ => by
      simp [← ha, hm.header] at h1
  case some ha =>
    cases h2 : tree.header b
    case some hb => exact (treeRoute_spec h1 h2 (.inr trivial)).mono fun _ _ => trivial
    case none =>
      refine (headerMetadata_spec fun _ => trivial).bind fun one _ => ?_
      exact (headerMetadata_spec fun _ => trivial).bind fun m ⟨hb, hm⟩ => by
        simp [← hb, hm.header] at h2

theorem sound_perform {cache : M} (h : Sound tree cache) (call : Call H) :
    Sound tree (perform tree.header cache call) := by
  cases call
  case lowestCommonAncestor rounds idOne idTwo =>
    exact (lowestCommonAncestor_keeps idOne idTwo).finalState h
  case treeRoute rounds idFrom idTo => exact (treeRoute_keeps idFrom idTo).finalState h
  case headerMetadata hash =>
    exact (headerMetadata_spec (E := fun _ => True) fun _ => trivial).finalState h
  case removeHeaderMetadata hash => exact CacheMap.All.remove h hash

theorem sound_calls {cache : M} (calls : List (Call H)) (h : Sound tree cache) :
    Sound tree (calls.foldl (perform tree.header) cache) := by
  induction calls generalizing cache
  case nil => exact h
  case cons call calls hi => exact hi (sound_perform h call)

-- Whatever was asked before and whatever the cache has forgotten, the answers are right.
theorem common_ancestor_right (tree : BlockTree H) {cache : M} (hempty : CacheMap.Empty cache)
    (calls : List (Call H)) {ha hb : Header H} (h₁ : tree.header a = some ha)
    (h₂ : tree.header b = some hb) (hr : ha.number + hb.number < rounds) :
    ∃ c, Answers tree a b c ∧
      (∃ cache', lowestCommonAncestor tree.header rounds a b
        (calls.foldl (perform tree.header) cache) = .ok c cache') ∧
      ∃ r cache', treeRoute tree.header rounds a b
        (calls.foldl (perform tree.header) cache) = .ok r cache' ∧ Connects tree a b r c := by
  have hs : Sound tree (calls.foldl (perform tree.header) cache) :=
    sound_calls calls (.of_empty hempty)
  obtain ⟨c, cache', hok, hc⟩ := (lowestCommonAncestor_spec h₁ h₂ (.inl hr)).eq_ok hs
  obtain ⟨r, cache'', hok', c', hc'⟩ := (treeRoute_spec h₁ h₂ (.inl hr)).eq_ok hs
  refine ⟨c, hc, ⟨cache', hok⟩, r, cache'', hok', ?_⟩
  -- There is only one such block, and its number is that of its header.
  obtain ⟨hlca, h, hh, hn⟩ := hc
  obtain ⟨hlca', h', hh', hn'⟩ := hc'.answers
  have hhash := hlca.unique hlca' hh
  have : c = c' := by
    cases c
    simp_all
  rwa [this]

-- A chain of the blocks 1 to 5, with the blocks 6 and 7 on top of 2, and 8 on top of 1.
def sampleTree : BlockTree Nat where
  header
    | 1 => some ⟨0, 0, 0⟩
    | 2 => some ⟨1, 1, 0⟩
    | 3 => some ⟨2, 2, 0⟩
    | 4 => some ⟨3, 3, 0⟩
    | 5 => some ⟨4, 4, 0⟩
    | 6 => some ⟨2, 2, 0⟩
    | 7 => some ⟨3, 6, 0⟩
    | 8 => some ⟨1, 1, 0⟩
    | _ => none
  root := 1
  first := ⟨_, rfl, rfl⟩
  parent := by
    intro hash h hh hne
    split at hh
    case h_1 => exact absurd rfl hne
    case h_9 => cases hh
    all_goals
      cases hh
      exact ⟨_, rfl, rfl⟩

-- A cache of three entries after two queries. The link of block 5 leads to block 2.
def sampleCache : LruMap Nat (CachedHeaderMetadata Nat) :=
  [Call.lowestCommonAncestor 9 5 7, .headerMetadata 1].foldl (perform sampleTree.header)
    { capacity := 3 }

theorem sampleTree_common_ancestor :
    sampleCache.entries.map (fun e => (e.1, e.2.ancestor)) = [(1, 0), (7, 2), (5, 2)] ∧
    Answers sampleTree 5 8 ⟨0, 1⟩ ∧
    (∃ cache', lowestCommonAncestor sampleTree.header 9 5 8 sampleCache = .ok ⟨0, 1⟩ cache') ∧
    ∃ r cache', treeRoute sampleTree.header 9 5 8 sampleCache = .ok r cache' ∧
      Connects sampleTree 5 8 r ⟨0, 1⟩ ∧ r.retracted = [⟨4, 5⟩, ⟨3, 4⟩, ⟨2, 3⟩, ⟨1, 2⟩] ∧
        r.enacted = [⟨1, 8⟩] := by
  have hempty : CacheMap.Empty ({ capacity := 3 } : LruMap Nat (CachedHeaderMetadata Nat)) :=
    fun _ _ => List.not_mem_nil
  obtain ⟨c, ha, ⟨cache, hc⟩, r, cache', hr, hconnects⟩ := common_ancestor_right sampleTree hempty
    [.lowestCommonAncestor 9 5 7, .headerMetadata 1] (a := 5) (b := 8) rfl rfl
      (by decide : 4 + 1 < 9)
  have hlca : ∃ cache', lowestCommonAncestor sampleTree.header 9 5 8 sampleCache =
      .ok ⟨0, 1⟩ cache' :=
    ⟨_, rfl⟩
  have hroute : ∃ cache', treeRoute sampleTree.header 9 5 8 sampleCache =
      .ok ⟨[⟨4, 5⟩, ⟨3, 4⟩, ⟨2, 3⟩, ⟨1, 2⟩, ⟨0, 1⟩, ⟨1, 8⟩], 4⟩ cache' := ⟨_, rfl⟩
  obtain ⟨_, hc'⟩ := hlca
  obtain ⟨_, hr'⟩ := hroute
  cases hc.symm.trans hc'
  cases hr.symm.trans hr'
  exact ⟨rfl, ha, ⟨_, hc⟩, _, _, hr, hconnects, rfl, rfl⟩

end Headers
