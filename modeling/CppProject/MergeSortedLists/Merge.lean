import CppProject.MergeSortedLists.Source

/-!
# The merged list

The nodes that have been taken hang together from `dummy.next` to `tail`; what the last of them
links to does not matter, it is overwritten next.  The nodes of the two remaining lists are not
touched until they are taken.
-/

namespace CppProject.MergeSortedLists

open Library Library.Checked Library.LinkedLists

/-- A node of the second list is taken unless the one of the first list is smaller. -/
def notGreater (second first : Nat × Int) : Bool := decide (second.2 ≤ first.2)

/-- The order in which the loop takes the nodes of two lists. -/
def interleave (xs ys : List (Nat × Int)) : List (Nat × Int) := ys.merge xs notGreater

variable {before heap : List (Node Int)} {built xs ys : List (Nat × Int)} {s s' : MergeState}
variable {place : Nat} {node : Node Int}

/-- The nodes from `dummy.next` to `tail`. -/
def Built (s : MergeState) (built : List (Nat × Int)) : Prop :=
  s.tail = .dummy ∧ built = [] ∨
    ∃ front place data stop, s.tail = .node place ∧ built = front ++ [(place, data)] ∧
      Path s.heap s.dummyNext built stop

/-- Only links of nodes that have been taken differ. -/
structure Relinked (built : List (Nat × Int)) (s s' : MergeState) : Prop where
  tail : s'.tail = s.tail
  h1 : s'.h1 = s.h1
  h2 : s'.h2 = s.h2
  length : s'.heap.length = s.heap.length
  others : ∀ p, p ∉ places built → s'.heap[p]? = s.heap[p]?

/-- The nodes that have been taken are linked to what comes next. -/
theorem Built.link (inv : Built s built) (nodup : (places built).Nodup) (next : Pointer) :
    ∃ s', linkTail s next = .ok s' ∧ Relinked built s s' ∧
      Path s'.heap s'.dummyNext built next := by
  unfold linkTail
  rcases inv with ⟨tail_eq, rfl⟩ | ⟨front, place, data, stop, tail_eq, rfl, path⟩
  · rw [tail_eq]
    exact ⟨_, rfl, ⟨tail_eq.symm, rfl, rfl, rfl, fun _ _ => rfl⟩, .nil next⟩
  · obtain ⟨inner, found⟩ := path.of_snoc
    obtain ⟨inside, _⟩ := List.getElem?_eq_some_iff.mp found
    have off : place ∉ places front := by
      rw [places, List.map_append, List.nodup_append_comm] at nodup
      exact (List.nodup_cons.mp nodup).1
    have written : (s.heap.set place ⟨data, next⟩)[place]? = some ⟨data, next⟩ :=
      List.getElem?_set_self inside
    have kept : Path (s.heap.set place ⟨data, next⟩) s.dummyNext front (some place) :=
      inner.agree fun p on => List.getElem?_set_ne (by rintro rfl; exact off on)
    rw [tail_eq]
    simp only [load_eq_ok.mpr found, ok_bind, store_of_lt inside]
    refine ⟨_, rfl, ⟨tail_eq.symm, rfl, rfl, List.length_set, fun p apart => ?_⟩, kept.snoc written⟩
    refine List.getElem?_set_ne fun same => apart ?_
    rw [places, List.map_append, List.mem_append]
    exact Or.inr (List.mem_singleton.mpr same.symm)

/-- A node is appended to the ones that have been taken. -/
theorem Built.extend (inv : Built s built) (nodup : (places built).Nodup)
    (found : s.heap[place]? = some node) (off : place ∉ places built) :
    ∃ s', linkTail s (some place) = .ok s' ∧ Relinked built s s' ∧
      Built { s' with tail := .node place } (built ++ [(place, node.data)]) := by
  obtain ⟨s', run, relinked, path⟩ := inv.link nodup (some place)
  have still : s'.heap[place]? = some node := (relinked.others place off).trans found
  exact ⟨s', run, relinked, Or.inr ⟨built, place, node.data, node.next, rfl, rfl, path.snoc still⟩⟩

/-- The states of the loop: the nodes taken so far and those of the two remaining lists. -/
structure Merging (before : List (Node Int)) (s : MergeState) (built xs ys : List (Nat × Int)) :
    Prop where
  chain : Built s built
  first : IsList s.heap s.h1 xs
  second : IsList s.heap s.h2 ys
  nodup : (places (built ++ (xs ++ ys))).Nodup
  others : ∀ p, p ∉ places built → s.heap[p]? = before[p]?

/-- A node taken out of nodes in different places. -/
theorem nodup_taken {all rest : List (Nat × Int)} {taken : Nat × Int} (nodup : (places all).Nodup)
    (moved : all.Perm (taken :: rest)) : taken.1 ∉ places rest ∧ (places rest).Nodup := by
  rw [places, (moved.map Prod.fst).nodup_iff, List.map_cons] at nodup
  exact List.nodup_cons.mp nodup

/-- A node that is on neither of the remaining lists is appended to the ones that have been taken. -/
theorem Merging.append (inv : Merging before s built xs ys) (found : s.heap[place]? = some node)
    (off : place ∉ places (built ++ (xs ++ ys))) :
    ∃ s', linkTail s (some place) = .ok s' ∧
      Merging before { s' with tail := .node place } (built ++ [(place, node.data)]) xs ys := by
  obtain ⟨chain, first, second, nodup, others⟩ := inv
  simp only [places, List.map_append, List.mem_append, not_or] at off nodup
  obtain ⟨off_built, off_xs, off_ys⟩ := off
  obtain ⟨built_nodup, _, apart⟩ := List.nodup_append.mp nodup
  obtain ⟨s', run, relinked, chain'⟩ := chain.extend built_nodup found off_built
  have kept (p : Nat) (later : p ∈ places (xs ++ ys)) : s'.heap[p]? = s.heap[p]? := by
    rw [places, List.map_append] at later
    exact relinked.others p fun taken => apart p taken p later rfl
  refine ⟨s', run, chain', ?_, ?_, ?_, ?_⟩
  · rw [relinked.h1]
    refine first.agree fun p on => kept p ?_
    rw [places, List.map_append]
    exact List.mem_append_left _ on
  · rw [relinked.h2]
    refine second.agree fun p on => kept p ?_
    rw [places, List.map_append]
    exact List.mem_append_right _ on
  · have moved : (built ++ [(place, node.data)] ++ (xs ++ ys)).Perm
        ((place, node.data) :: (built ++ (xs ++ ys))) := by
      rw [List.append_assoc]
      exact List.perm_middle
    rw [places, (moved.map Prod.fst).nodup_iff, List.map_cons, List.nodup_cons]
    simp only [List.map_append, List.mem_append, not_or]
    exact ⟨⟨off_built, off_xs, off_ys⟩, nodup⟩
  · intro p apart_now
    rw [places, List.map_append, List.mem_append, not_or] at apart_now
    exact (relinked.others p apart_now.1).trans (others p apart_now.1)

section Round

variable {x y : Nat × Int}

/-- A round takes the first node of one of the lists. -/
theorem Merging.round (inv : Merging before s built (x :: xs) (y :: ys)) :
    ∃ s', appendMin s = .ok s' ∧
      (notGreater y x = true ∧ Merging before s' (built ++ [y]) (x :: xs) ys ∨
        notGreater y x = false ∧ Merging before s' (built ++ [x]) xs (y :: ys)) := by
  obtain ⟨x_place, x_data⟩ := x
  obtain ⟨y_place, y_data⟩ := y
  obtain ⟨n1, h1_eq, found1, rfl, rest1⟩ := isList_cons inv.first
  obtain ⟨n2, h2_eq, found2, rfl, rest2⟩ := isList_cons inv.second
  have read1 : deref s.heap s.h1 = .ok n1 := by
    rw [h1_eq]
    exact load_eq_ok.mpr found1
  have read2 : deref s.heap s.h2 = .ok n2 := by
    rw [h2_eq]
    exact load_eq_ok.mpr found2
  unfold appendMin takeMin
  rw [read1, ok_bind, read2, ok_bind]
  by_cases smaller : n1.data < n2.data
  · obtain ⟨off, nodup⟩ := nodup_taken inv.nodup List.perm_middle
    have rest : Merging before { s with h1 := n1.next } built xs ((y_place, n2.data) :: ys) :=
      ⟨inv.chain, rest1, inv.second, nodup, inv.others⟩
    obtain ⟨s', run, after⟩ := rest.append found1 off
    refine ⟨{ s' with tail := .node x_place }, ?_, Or.inr ⟨decide_eq_false (Int.not_le.mpr smaller), after⟩⟩
    rw [if_pos smaller, ok_bind, h1_eq]
    simp only [run, ok_bind]
  · obtain ⟨off, nodup⟩ := nodup_taken inv.nodup
      ((List.Perm.append_left built List.perm_middle).trans List.perm_middle)
    have rest : Merging before { s with h2 := n2.next } built ((x_place, n1.data) :: xs) ys :=
      ⟨inv.chain, inv.first, rest2, nodup, inv.others⟩
    obtain ⟨s', run, after⟩ := rest.append found2 off
    refine ⟨{ s' with tail := .node y_place }, ?_, Or.inl ⟨decide_eq_true (Int.not_lt.mp smaller), after⟩⟩
    rw [if_neg smaller, ok_bind, h2_eq]
    simp only [run, ok_bind]

/-- When one list is used up the other one is linked behind the nodes that have been taken. -/
theorem Merging.splice {rest : List (Nat × Int)} {h : Pointer} (inv : Merging before s built xs ys)
    (list : IsList s.heap h rest) (apart : (places (built ++ rest)).Nodup) :
    ∃ s', linkTail s h = .ok s' ∧ IsList s'.heap s'.dummyNext (built ++ rest) ∧
      ∀ p, p ∉ places built → s'.heap[p]? = before[p]? := by
  rw [places, List.map_append, List.nodup_append] at apart
  obtain ⟨s', run, relinked, path⟩ := inv.chain.link apart.1 h
  have kept : IsList s'.heap h rest :=
    list.agree fun p on => relinked.others p fun taken => apart.2.2 p taken p on rfl
  exact ⟨s', run, path.append kept,
    fun p off => (relinked.others p off).trans (inv.others p off)⟩

/-- The outcome of the loop: the nodes of both lists behind `dummy`, the others as they were. -/
def Merged (before : List (Node Int)) (s : MergeState) (built xs ys : List (Nat × Int)) : Prop :=
  IsList s.heap s.dummyNext (built ++ interleave xs ys) ∧
    ∀ p, p ∉ places (built ++ (xs ++ ys)) → s.heap[p]? = before[p]?

/-- The end of a round: the loop is left when one of the lists is used up. -/
theorem Merging.finish {rounds : Nat} (inv : Merging before s built xs ys)
    (loop : ∀ x xs' y ys', xs = x :: xs' → ys = y :: ys' →
      Returns (mergeLoop rounds s) fun s' => Merged before s' built xs ys) :
    Returns (if s.h1 = none then linkTail s s.h2
      else if s.h2 = none then linkTail s s.h1
      else mergeLoop rounds s) fun s' => Merged before s' built xs ys := by
  have fewer {p : Nat} (off : p ∉ places (built ++ (xs ++ ys))) : p ∉ places built := by
    rw [places, List.map_append, List.mem_append, not_or] at off
    exact off.1
  have first_null := isList_none_iff inv.first
  have second_null := isList_none_iff inv.second
  cases xs with
  | nil =>
      obtain ⟨s', run, list, others⟩ := inv.splice inv.second inv.nodup
      rw [if_pos (first_null.mpr rfl)]
      refine ⟨s', run, ?_, fun p off => others p (fewer off)⟩
      rwa [interleave, List.merge_right]
  | cons x xs =>
      rw [if_neg fun null => List.cons_ne_nil x xs (first_null.mp null)]
      cases ys with
      | nil =>
          have nodup := inv.nodup
          rw [List.append_nil] at nodup
          obtain ⟨s', run, list, others⟩ := inv.splice inv.first nodup
          rw [if_pos (second_null.mpr rfl)]
          refine ⟨s', run, ?_, fun p off => others p (fewer off)⟩
          rwa [interleave, List.nil_merge]
      | cons y ys =>
          rw [if_neg fun null => List.cons_ne_nil y ys (second_null.mp null)]
          exact loop x xs y ys rfl rfl

/-- With a round for every node the loop ends, and all nodes are linked in the order in which they
are taken. -/
theorem mergeLoop_spec {rounds : Nat} (inv : Merging before s built (x :: xs) (y :: ys))
    (enough : xs.length + ys.length < rounds) :
    Returns (mergeLoop rounds s) fun s' => Merged before s' built (x :: xs) (y :: ys) := by
  induction rounds generalizing s built x xs y ys with
  | zero => exact absurd enough (Nat.not_lt_zero _)
  | succ rounds ih =>
      rw [mergeLoop]
      obtain ⟨s1, run, ⟨order, taken⟩ | ⟨order, taken⟩⟩ := inv.round
      · rw [run, ok_bind]
        obtain ⟨s', rest, list, others⟩ := taken.finish fun _ _ _ _ xs_eq ys_eq => by
          cases xs_eq
          subst ys_eq
          exact ih taken (by rw [List.length_cons] at enough; omega)
        refine ⟨s', rest, ?_, fun p off => others p ?_⟩
        · rw [List.append_assoc] at list
          rw [interleave, List.cons_merge_cons, if_pos order]
          exact list
        · have moved : (built ++ [y] ++ (x :: xs ++ ys)).Perm (built ++ (x :: xs ++ y :: ys)) := by
            rw [List.append_assoc]
            exact List.Perm.append_left built (@List.perm_middle _ y (x :: xs) ys).symm
          rwa [places, (moved.map Prod.fst).mem_iff]
      · rw [run, ok_bind]
        obtain ⟨s', rest, list, others⟩ := taken.finish fun _ _ _ _ xs_eq ys_eq => by
          cases ys_eq
          subst xs_eq
          exact ih taken (by rw [List.length_cons] at enough; omega)
        refine ⟨s', rest, ?_, fun p off => others p ?_⟩
        · rw [List.append_assoc] at list
          rw [interleave, List.cons_merge_cons, if_neg (by rw [order]; exact Bool.false_ne_true)]
          exact list
        · rwa [List.append_assoc]

end Round

/-! ## The order of the nodes -/

/-- The nodes of each list keep their order. -/
theorem interleave_sublists (xs ys : List (Nat × Int)) :
    xs.Sublist (interleave xs ys) ∧ ys.Sublist (interleave xs ys) := by
  unfold interleave
  induction xs generalizing ys with
  | nil =>
      rw [List.merge_right]
      exact ⟨List.nil_sublist ys, List.Sublist.refl ys⟩
  | cons x xs ih =>
      induction ys with
      | nil =>
          rw [List.nil_merge]
          exact ⟨List.Sublist.refl _, List.nil_sublist _⟩
      | cons y ys ih_ys =>
          rw [List.cons_merge_cons]
          split
          · exact ⟨ih_ys.1.cons y, ih_ys.2.cons_cons y⟩
          · exact ⟨(ih (y :: ys)).1.cons_cons x, (ih (y :: ys)).2.cons x⟩

/-- Two sorted lists give a sorted one. -/
theorem interleave_sorted {xs ys : List (Nat × Int)} (first : (xs.map Prod.snd).Pairwise (· ≤ ·))
    (second : (ys.map Prod.snd).Pairwise (· ≤ ·)) :
    ((interleave xs ys).map Prod.snd).Pairwise (· ≤ ·) := by
  rw [List.pairwise_map] at first second ⊢
  have merged := @List.pairwise_merge _ notGreater
    (fun a b c low high => decide_eq_true (Int.le_trans (of_decide_eq_true low) (of_decide_eq_true high)))
    (fun a b => by
      rw [Bool.or_eq_true, notGreater, notGreater, decide_eq_true_iff, decide_eq_true_iff]
      exact Int.le_total a.2 b.2)
    ys xs (second.imp decide_eq_true) (first.imp decide_eq_true)
  exact merged.imp of_decide_eq_true

/-- The nodes of two lists without a common node are linked in the order in which they are taken. -/
theorem mergeSortedLists_spec {h1 h2 : Pointer} (first : IsList heap h1 xs) (second : IsList heap h2 ys)
    (disjoint : (places xs).Disjoint (places ys)) :
    ∃ after h, mergeSortedLists heap h1 h2 = .ok (after, h) ∧ IsList after h (interleave xs ys) ∧
      ∀ p, p ∉ places (xs ++ ys) → after[p]? = heap[p]? := by
  have first_null := isList_none_iff first
  have second_null := isList_none_iff second
  unfold mergeSortedLists
  cases xs with
  | nil =>
      rw [if_pos (first_null.mpr rfl), interleave, List.merge_right]
      exact ⟨heap, h2, rfl, second, fun _ _ => rfl⟩
  | cons x xs =>
      rw [if_neg fun null => List.cons_ne_nil x xs (first_null.mp null)]
      cases ys with
      | nil =>
          rw [if_pos (second_null.mpr rfl), interleave, List.nil_merge]
          exact ⟨heap, h1, rfl, first, fun _ _ => rfl⟩
      | cons y ys =>
          rw [if_neg fun null => List.cons_ne_nil y ys (second_null.mp null)]
          have nodup : (places (x :: xs ++ y :: ys)).Nodup := by
            rw [places, List.map_append]
            exact List.Nodup.append (isList_nodup first) (isList_nodup second) disjoint
          have inside : ∀ p ∈ places (x :: xs ++ y :: ys), p < heap.length := by
            rw [places, List.map_append]
            exact List.forall_mem_append.mpr ⟨first.lt_length, second.lt_length⟩
          have fewer := length_le_of_nodup nodup inside
          rw [List.length_append, List.length_cons, List.length_cons] at fewer
          have begun : Merging heap ⟨heap, none, .dummy, h1, h2⟩ [] (x :: xs) (y :: ys) :=
            ⟨Or.inl ⟨rfl, rfl⟩, first, second, nodup, fun _ _ => rfl⟩
          obtain ⟨s', run, list, others⟩ :=
            @mergeLoop_spec _ _ _ _ _ _ _ (heap.length + 1) begun (by omega)
          rw [run]
          exact ⟨s'.heap, s'.dummyNext, rfl, list, others⟩

/-- Two sorted lists without a common node are merged into one: the merged list is sorted, has the
nodes of both lists, each once and with its data, in their order, and no other node is touched. -/
theorem mergeSortedLists_merges {h1 h2 : Pointer} (first : IsList heap h1 xs) (second : IsList heap h2 ys)
    (disjoint : (places xs).Disjoint (places ys)) (first_sorted : (xs.map Prod.snd).Pairwise (· ≤ ·))
    (second_sorted : (ys.map Prod.snd).Pairwise (· ≤ ·)) :
    ∃ after h merged, mergeSortedLists heap h1 h2 = .ok (after, h) ∧ IsList after h merged ∧
      (merged.map Prod.snd).Pairwise (· ≤ ·) ∧ merged.Perm (xs ++ ys) ∧ (places merged).Nodup ∧
      xs.Sublist merged ∧ ys.Sublist merged ∧
      ∀ p, p ∉ places (xs ++ ys) → after[p]? = heap[p]? := by
  obtain ⟨after, h, run, list, others⟩ := mergeSortedLists_spec first second disjoint
  have perm : (interleave xs ys).Perm (xs ++ ys) :=
    (List.merge_perm_append notGreater).trans List.perm_append_comm
  obtain ⟨first_order, second_order⟩ := interleave_sublists xs ys
  exact ⟨after, h, interleave xs ys, run, list, interleave_sorted first_sorted second_sorted, perm,
    isList_nodup list, first_order, second_order, others⟩

/-- Two lists with a common value, and a node of neither list in between. -/
theorem mergeSortedLists_merges_ties :
    ∃ after h merged, mergeSortedLists [⟨1, some 3⟩, ⟨2, none⟩, ⟨7, none⟩, ⟨2, none⟩] (some 0) (some 1) =
        .ok (after, h) ∧ IsList after h merged ∧ merged.Perm [(0, 1), (3, 2), (1, 2)] ∧
      after[2]? = some ⟨7, none⟩ := by
  have first : @IsList Int [⟨1, some 3⟩, ⟨2, none⟩, ⟨7, none⟩, ⟨2, none⟩] (some 0) [(0, 1), (3, 2)] :=
    @Path.cons _ _ 0 ⟨1, some 3⟩ _ _ rfl (@Path.cons _ _ 3 ⟨2, none⟩ _ _ rfl (.nil none))
  have second : @IsList Int [⟨1, some 3⟩, ⟨2, none⟩, ⟨7, none⟩, ⟨2, none⟩] (some 1) [(1, 2)] :=
    @Path.cons _ _ 1 ⟨2, none⟩ _ _ rfl (.nil none)
  have disjoint : [0, 3].Disjoint [1] := List.disjoint_singleton.mpr (by decide)
  obtain ⟨after, h, merged, run, list, _, perm, _, _, _, others⟩ :=
    mergeSortedLists_merges first second disjoint (by decide) (by decide)
  exact ⟨after, h, merged, run, list, perm, others 2 (by decide)⟩

end CppProject.MergeSortedLists
