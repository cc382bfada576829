import Mathlib.Data.Finset.Card
import Mathlib.Logic.Relation
import Pathwise.Graph.Walk

/-!
# Depth-first walks and searches

A depth-first walk goes through vertices one after the other. It passes over what it has entered
before; anything else it enters, and leaves it when it has gone through the neighbours. The walk
with a stack does the same errand by errand: a vertex that was put on the stack more than once is
passed over when it comes up again, and the mark to leave a vertex comes up when all that was put
above it is done. It is never cut short, so that it comes to the same as the walk by recursion.

A walk misses nothing and gets only to what can be reached. And it leaves vertices in good order:
when it leaves one, each neighbour has been left before, or is still open and leads back to the
vertex. A search, which has no order to keep, finds what can be reached as well.
-/

namespace Pathwise.Walk

variable {next : Nat → List Nat} {w w' w'' : Walk} {area : Finset Nat} {depth v u : Nat}
  {ts ts' : List Nat}

/-- The walk by recursion: enters a vertex unless it was entered before, walks on from each of its
neighbours, and then leaves it. It goes at most as many vertices deep as the first argument
says. -/
def visit (next : Nat → List Nat) : Nat → Walk → Nat → Walk
  | 0, w, _ => w
  | depth + 1, w, v =>
    if v ∈ w.seen then
      w
    else
      let inner := (next v).foldl (visit next depth) { w with seen := v :: w.seen }
      { inner with left := v :: inner.left }

/-- A walk goes through vertices one after the other. -/
inductive GoesThrough (next : Nat → List Nat) : List Nat → Walk → Walk → Prop where
  /-- There is nothing more to go through. -/
  | done (w : Walk) : GoesThrough next [] w w
  /-- What was entered before is passed over. -/
  | pass {w w' : Walk} {v : Nat} {ts : List Nat} (hseen : v ∈ w.seen)
    (h : GoesThrough next ts w w') : GoesThrough next (v :: ts) w w'
  /-- Anything else is entered, and left after its neighbours. -/
  | enter {w inner w' : Walk} {v : Nat} {ts : List Nat} (hnew : v ∉ w.seen)
    (hinner : GoesThrough next (next v) { w with seen := v :: w.seen } inner)
    (h : GoesThrough next ts { inner with left := v :: inner.left } w') :
    GoesThrough next (v :: ts) w w'

namespace GoesThrough

/-- Going through one list and then another is going through both. -/
theorem append (h : GoesThrough next ts w w') (h' : GoesThrough next ts' w' w'') :
    GoesThrough next (ts ++ ts') w w'' := by
  induction h with
  | done => exact h'
  | pass hseen _ ih => exact .pass hseen (ih h')
  | enter hnew hinner _ _ ih => exact .enter hnew hinner (ih h')

/-- What was entered stays entered. -/
theorem seen (h : GoesThrough next ts w w') (hu : u ∈ w.seen) : u ∈ w'.seen := by
  induction h with
  | done => exact hu
  | pass _ _ ih => exact ih hu
  | enter _ _ _ ihinner ih => exact ih (ihinner (List.mem_cons_of_mem _ hu))

end GoesThrough

/-- What goes through each vertex of an area goes through several of them, one after the other:
there are never more vertices left to enter than before. -/
theorem goesThrough_foldl {f : Walk → Nat → Walk}
    (hf : ∀ {w v}, v ∈ area → (area \ w.seen.toFinset).card ≤ depth →
      GoesThrough next [v] w (f w v))
    (hts : ∀ t ∈ ts, t ∈ area) (hdepth : (area \ w.seen.toFinset).card ≤ depth) :
    GoesThrough next ts w (ts.foldl f w) := by
  induction ts generalizing w with
  | nil => exact .done w
  | cons t ts ih =>
    have hfirst := hf (hts t List.mem_cons_self) hdepth
    refine hfirst.append (ih (fun u hu => hts u (List.mem_cons_of_mem _ hu)) ?_)
    refine (Finset.card_le_card (Finset.sdiff_subset_sdiff subset_rfl ?_)).trans hdepth
    intro u hu
    simpa using hfirst.seen (by simpa using hu)

/-- A walk that may go as deep as there are vertices left to enter goes through its vertex. -/
theorem visit_goesThrough (harea : ∀ u ∈ area, ∀ t ∈ next u, t ∈ area) (hv : v ∈ area)
    (hdepth : (area \ w.seen.toFinset).card ≤ depth) :
    GoesThrough next [v] w (visit next depth w v) := by
  induction depth generalizing w v with
  | zero =>
    have hempty := Finset.card_eq_zero.1 (Nat.le_zero.1 hdepth)
    have hmem : v ∈ w.seen := by simpa using Finset.sdiff_eq_empty_iff_subset.1 hempty hv
    exact .pass hmem (.done w)
  | succ depth ih =>
    rw [visit]
    split
    · next hseen => exact .pass hseen (.done w)
    · next hseen =>
      have hcard : (area \ (v :: w.seen).toFinset).card ≤ depth := by
        have hmem : v ∈ area \ w.seen.toFinset := by simp [hv, hseen]
        have hpos := Finset.card_pos.2 ⟨v, hmem⟩
        rw [List.toFinset_cons, Finset.sdiff_insert, Finset.card_erase_of_mem hmem]
        omega
      exact .enter hseen (goesThrough_foldl ih (harea v hv) hcard) (.done _)

/-! ## The stack -/

section Stack

variable {seen span : List Nat} {steps : Nat} {stack : List Errand} {errand : Errand}

/-- With nothing on the stack a walk is over. -/
theorem run_nil (next : Nat → List Nat) (steps : Nat) (w : Walk) : w.run next steps [] = w := by
  cases steps <;> rfl

/-- A walk with a stack goes through what lies on top, and comes to what lies below when it has left
all that it entered. Which of the vertices on top were left out of the stack makes no difference as
long as they had been entered. -/
theorem GoesThrough.run_eq (h : GoesThrough next ts w w') (seen : List Nat)
    (hseen : ∀ u ∈ seen, u ∈ w.seen) : ∃ n, ∀ steps stack,
      w.run next (n + steps) (ts.foldr (push seen) stack) = w'.run next steps stack := by
  induction h generalizing seen with
  | done w => exact ⟨0, fun steps stack => by rw [Nat.zero_add, List.foldr_nil]⟩
  | @pass w w' v ts hv h ih =>
    obtain ⟨n, hn⟩ := ih seen hseen
    by_cases hpushed : v ∈ seen
    · exact ⟨n, fun steps stack => by rw [List.foldr_cons, push, if_pos hpushed, hn]⟩
    · refine ⟨n + 1, fun steps stack => ?_⟩
      rw [List.foldr_cons, push, if_neg hpushed, Nat.add_right_comm, run, step, if_pos hv, hn]
  | @enter w inner w' v ts hnew hinner h ihinner ih =>
    obtain ⟨n, hn⟩ := ihinner (v :: w.seen) fun u hu => hu
    obtain ⟨m, hm⟩ := ih seen fun u hu =>
      hinner.seen (List.mem_cons_of_mem _ (hseen u hu))
    refine ⟨n + (m + 1) + 1, fun steps stack => ?_⟩
    have hpushed : v ∉ seen := fun hv => hnew (hseen v hv)
    rw [List.foldr_cons, push, if_neg hpushed, Nat.add_right_comm, run, step, if_neg hnew]
    -- the neighbours, then the mark to leave the vertex, then what lay below it
    rw [Nat.add_assoc, hn, Nat.add_right_comm, run, step, hm]

/-- How many errands the vertices of a span give rise to, those aside that were entered before. -/
def load (next : Nat → List Nat) (seen : List Nat) : List Nat → Nat
  | [] => 0
  | u :: span => load next seen span + if u ∈ seen then 0 else (next u).length + 1

/-- Entering a vertex adds no errands. -/
theorem load_cons_le (next : Nat → List Nat) (v : Nat) (seen span : List Nat) :
    load next (v :: seen) span ≤ load next seen span := by
  induction span with
  | nil => exact Nat.le_refl 0
  | cons u span ih =>
    refine Nat.add_le_add ih ?_
    by_cases hu : u ∈ seen
    · rw [if_pos hu, if_pos (List.mem_cons_of_mem _ hu)]
    · rw [if_neg hu]
      split <;> omega

/-- Entering a vertex uses up its share. -/
theorem load_enter (next : Nat → List Nat) (hv : v ∈ span) (hnew : v ∉ seen) :
    load next (v :: seen) span + ((next v).length + 1) ≤ load next seen span := by
  induction span with
  | nil => cases hv
  | cons u span ih =>
    by_cases huv : u = v
    · subst huv
      have hle := load_cons_le next u seen span
      simp only [load, List.mem_cons_self, if_true, if_neg hnew]
      omega
    · have hrest := ih ((List.mem_cons.1 hv).resolve_left (Ne.symm huv))
      simp only [load, List.mem_cons, huv, false_or]
      omega

/-- No more is put on the stack than there are neighbours. -/
theorem length_foldr_push (seen ts : List Nat) (stack : List Errand) :
    (ts.foldr (push seen) stack).length ≤ ts.length + stack.length := by
  induction ts with
  | nil => simp
  | cons t ts ih =>
    rw [List.foldr_cons, push]
    split <;> simp only [List.length_cons] <;> omega

/-- Nothing else than neighbours is put on the stack. -/
theorem enter_mem_foldr_push (h : .enter u ∈ ts.foldr (push seen) stack) :
    u ∈ ts ∨ .enter u ∈ stack := by
  induction ts with
  | nil => exact .inr h
  | cons t ts ih =>
    rw [List.foldr_cons, push] at h
    split at h
    · exact (ih h).imp_left (List.mem_cons_of_mem _)
    · rcases List.mem_cons.1 h with heq | h
      · exact .inl (Errand.enter.inj heq ▸ List.mem_cons_self)
      · exact (ih h).imp_left (List.mem_cons_of_mem _)

/-- Each errand leaves less to do, and puts only vertices of the span on the stack. -/
theorem step_load (hspan : ∀ u ∈ span, ∀ t ∈ next u, t ∈ span)
    (hstack : ∀ u, .enter u ∈ errand :: stack → u ∈ span) :
    (w.step next errand stack).2.length + load next (w.step next errand stack).1.seen span <
        (errand :: stack).length + load next w.seen span ∧
      ∀ u, .enter u ∈ (w.step next errand stack).2 → u ∈ span := by
  have hbelow : ∀ u, .enter u ∈ stack → u ∈ span := fun u hu =>
    hstack u (List.mem_cons_of_mem _ hu)
  cases errand with
  | leave v => exact ⟨by simp [step], hbelow⟩
  | enter v =>
    rw [step]
    split
    · exact ⟨by simp, hbelow⟩
    · next hnew =>
      have hv := hstack v List.mem_cons_self
      have hload := load_enter next hv hnew
      have hlength := length_foldr_push (v :: w.seen) (next v) (.leave v :: stack)
      refine ⟨?_, fun u hu => ?_⟩
      · simp only [List.length_cons] at hlength ⊢
        omega
      · rcases enter_mem_foldr_push hu with hu | hu
        · exact hspan v hv u hu
        · exact hbelow u ((List.mem_cons.1 hu).resolve_left (by simp))

/-- A walk that may do as many errands as there can be gains nothing from more. -/
theorem run_of_load_le (hspan : ∀ u ∈ span, ∀ t ∈ next u, t ∈ span)
    (hstack : ∀ u, .enter u ∈ stack → u ∈ span)
    (hload : stack.length + load next w.seen span ≤ steps) (more : Nat) :
    w.run next (more + steps) stack = w.run next steps stack := by
  induction steps generalizing w stack with
  | zero =>
    have hnil := List.length_eq_zero_iff.1 (Nat.le_zero.1 (Nat.le_of_add_right_le hload))
    rw [hnil, run_nil, run_nil]
  | succ steps ih =>
    cases stack with
    | nil => rw [run_nil, run_nil]
    | cons errand stack =>
      obtain ⟨hless, hstack⟩ := step_load (w := w) hspan hstack
      rw [← Nat.add_assoc, run, run]
      exact ih hstack (by omega)

/-- The walk with a stack comes to what a walk comes to that goes through the same vertex. -/
theorem GoesThrough.run_enter (h : GoesThrough next [v] w w')
    (hspan : ∀ u ∈ span, ∀ t ∈ next u, t ∈ span) (hv : v ∈ span)
    (hload : 1 + load next w.seen span ≤ steps) : w.run next steps [.enter v] = w' := by
  obtain ⟨n, hn⟩ := h.run_eq [] fun u hu => absurd hu List.not_mem_nil
  have hstack : ∀ u, Errand.enter u ∈ [Errand.enter v] → u ∈ span := by
    intro u hu
    exact Errand.enter.inj (List.mem_singleton.1 hu) ▸ hv
  rw [← run_of_load_le hspan hstack hload n]
  exact (hn steps []).trans (run_nil next steps w')

end Stack

/-! ## Where a walk has been -/

/-- A walk has come further: whatever it has entered since, it has left, and has entered all
neighbours of it. -/
structure Extends (next : Nat → List Nat) (w w' : Walk) : Prop where
  /-- What was entered stays entered. -/
  seen : ∀ u ∈ w.seen, u ∈ w'.seen
  /-- What was left stays left. -/
  kept : ∀ u ∈ w.left, u ∈ w'.left
  /-- The neighbours of what has been entered since have been entered. -/
  closed : ∀ u ∈ w'.seen, u ∈ w.seen ∨ ∀ t ∈ next u, t ∈ w'.seen
  /-- What has been entered since has been left. -/
  left : ∀ u ∈ w'.seen, u ∈ w.seen ∨ u ∈ w'.left

theorem Extends.refl (w : Walk) : Extends next w w :=
  ⟨fun _ h => h, fun _ h => h, fun _ h => .inl h, fun _ h => .inl h⟩

theorem Extends.trans (h : Extends next w w') (h' : Extends next w' w'') : Extends next w w'' where
  seen := fun u hu => h'.seen u (h.seen u hu)
  kept := fun u hu => h'.kept u (h.kept u hu)
  closed := by
    intro u hu
    rcases h'.closed u hu with hu | hclosed
    · exact (h.closed u hu).imp_right fun hclosed t ht => h'.seen t (hclosed t ht)
    · exact .inr hclosed
  left := by
    intro u hu
    rcases h'.left u hu with hu | hleft
    · exact (h.left u hu).imp_right (h'.kept u)
    · exact .inr hleft

/-- The walk from a vertex, with what was entered and left meanwhile. -/
theorem Extends.leave {inner : Walk} (h : Extends next { w with seen := v :: w.seen } inner)
    (hnext : ∀ t ∈ next v, t ∈ inner.seen) :
    Extends next w { inner with left := v :: inner.left } where
  seen := fun u hu => h.seen u (List.mem_cons_of_mem _ hu)
  kept := fun u hu => List.mem_cons_of_mem _ (h.kept u hu)
  closed := by
    intro u hu
    rcases h.closed u hu with hu | hclosed
    · rcases List.mem_cons.1 hu with rfl | hu
      · exact .inr hnext
      · exact .inl hu
    · exact .inr hclosed
  left := by
    intro u hu
    rcases h.left u hu with hu | hleft
    · rcases List.mem_cons.1 hu with rfl | hu
      · exact .inr List.mem_cons_self
      · exact .inl hu
    · exact .inr (List.mem_cons_of_mem _ hleft)

/-- Within a vertex nothing is open but the vertex itself and what was open before. -/
theorem Extends.open_cases {inner : Walk} (h : Extends next { w with seen := v :: w.seen } inner)
    (hu : u ∈ inner.seen) (hnot : u ∉ inner.left) : u = v ∨ u ∈ w.seen ∧ u ∉ w.left := by
  rcases h.left u hu with hu | hleft
  · rcases List.mem_cons.1 hu with rfl | hu
    · exact .inl rfl
    · exact .inr ⟨hu, fun hleft => hnot (h.kept u hleft)⟩
  · exact absurd hleft hnot

namespace GoesThrough

/-- A walk comes further and enters all it goes through. -/
theorem extends_and_seen (h : GoesThrough next ts w w') :
    Extends next w w' ∧ ∀ t ∈ ts, t ∈ w'.seen := by
  induction h with
  | done w => exact ⟨.refl w, by simp⟩
  | pass hseen _ ih =>
    exact ⟨ih.1, List.forall_mem_cons.2 ⟨ih.1.seen _ hseen, ih.2⟩⟩
  | enter _ _ _ ihinner ih =>
    have hv := ih.1.seen _ (ihinner.1.seen _ List.mem_cons_self)
    exact ⟨(ihinner.1.leave ihinner.2).trans ih.1, List.forall_mem_cons.2 ⟨hv, ih.2⟩⟩

end GoesThrough

/-- Neighbours lead from one vertex to another. -/
def Leads (next : Nat → List Nat) : Nat → Nat → Prop := Relation.ReflTransGen fun a b => b ∈ next a

/-- What a walk has entered can be reached from where it goes through. -/
theorem GoesThrough.leads (h : GoesThrough next ts w w') (hu : u ∈ w'.seen) :
    u ∈ w.seen ∨ ∃ t ∈ ts, Leads next t u := by
  induction h with
  | done => exact .inl hu
  | pass _ _ ih =>
    exact (ih hu).imp_right fun hpath => hpath.imp fun t ht => ⟨List.mem_cons_of_mem _ ht.1, ht.2⟩
  | @enter w inner w' v ts hnew hinner h ihinner ih =>
    rcases ih hu with hu | ⟨t, ht, hpath⟩
    · rcases ihinner hu with hu | ⟨t, ht, hpath⟩
      · rcases List.mem_cons.1 hu with rfl | hu
        · exact .inr ⟨u, List.mem_cons_self, .refl⟩
        · exact .inl hu
      · exact .inr ⟨v, List.mem_cons_self, .head ht hpath⟩
    · exact .inr ⟨t, List.mem_cons_of_mem _ ht, hpath⟩

/-- What has been entered is what can be reached. -/
theorem GoesThrough.mem_seen_iff (h : GoesThrough next [v] start w) :
    u ∈ w.seen ↔ Leads next v u := by
  constructor
  · intro hu
    obtain ⟨t, ht, hpath⟩ := (h.leads hu).resolve_left List.not_mem_nil
    exact List.mem_singleton.1 ht ▸ hpath
  · intro hpath
    obtain ⟨hextends, hall⟩ := h.extends_and_seen
    induction hpath with
    | refl => exact hall v List.mem_cons_self
    | tail _ hstep ih => exact (hextends.closed _ ih).resolve_left List.not_mem_nil _ hstep

/-! ## In which order a walk leaves -/

/-- Each vertex of a list leads only to later ones of the list and to some that lead back to it. -/
def Settled (next : Nat → List Nat) : List Nat → Prop
  | [] => True
  | u :: earlier => (∀ t ∈ next u, t ∈ earlier ∨ Leads next t u) ∧ Settled next earlier

/-- What a walk has left so far is in good order. -/
structure Orderly (next : Nat → List Nat) (w : Walk) : Prop where
  /-- No vertex was left twice. -/
  nodup : w.left.Nodup
  /-- What was left had been entered. -/
  entered : ∀ u ∈ w.left, u ∈ w.seen
  /-- When a vertex was left, its neighbours had been left or lead back to it. -/
  settled : Settled next w.left

/-- Nothing has been left yet. -/
theorem orderly_start : Orderly next start :=
  ⟨.nil, fun _ hu => absurd hu List.not_mem_nil, trivial⟩

/-- A vertex is left in good order if its neighbours have been left or lead back to it. -/
theorem Orderly.leave (h : Orderly next w) (hv : v ∈ w.seen) (hnot : v ∉ w.left)
    (hnext : ∀ t ∈ next v, t ∈ w.left ∨ Leads next t v) :
    Orderly next { w with left := v :: w.left } where
  nodup := List.nodup_cons.2 ⟨hnot, h.nodup⟩
  entered := List.forall_mem_cons.2 ⟨hv, h.entered⟩
  settled := ⟨hnext, h.settled⟩

/-- A walk leaves vertices in good order if what is open, entered but not left, leads to all that it
goes through; and it leaves nothing that was open before. -/
theorem GoesThrough.orderly (h : GoesThrough next ts w w') (hw : Orderly next w)
    (hopen : ∀ u ∈ w.seen, u ∉ w.left → ∀ t ∈ ts, Leads next u t) :
    Orderly next w' ∧ ∀ u ∈ w.seen, u ∈ w'.left → u ∈ w.left := by
  induction h with
  | done => exact ⟨hw, fun _ _ hu => hu⟩
  | pass _ _ ih => exact ih hw fun u hu hnot t ht => hopen u hu hnot t (List.mem_cons_of_mem _ ht)
  | @enter w inner w' v ts hnew hinner h ihinner ih =>
    obtain ⟨hextends, hall⟩ := hinner.extends_and_seen
    have hedge : ∀ t ∈ next v, Leads next v t := fun t ht => .single ht
    -- within the vertex it is open itself
    obtain ⟨horderly, hsame⟩ := ihinner
      ⟨hw.nodup, fun u hu => List.mem_cons_of_mem _ (hw.entered u hu), hw.settled⟩ (by
        intro u hu hnot t ht
        rcases List.mem_cons.1 hu with rfl | hu
        · exact hedge t ht
        · exact Relation.ReflTransGen.trans (hopen u hu hnot v List.mem_cons_self) (hedge t ht))
    have hvleft : v ∉ inner.left := fun hv =>
      hnew (hw.entered v (hsame v List.mem_cons_self hv))
    have hleave : Orderly next { inner with left := v :: inner.left } := by
      refine horderly.leave (hextends.seen v List.mem_cons_self) hvleft fun t ht => ?_
      by_cases hleft : t ∈ inner.left
      · exact .inl hleft
      · right
        rcases hextends.open_cases (hall t ht) hleft with rfl | ⟨hseen, hnot⟩
        · exact .refl
        · exact hopen t hseen hnot v List.mem_cons_self
    obtain ⟨hw', hkept⟩ := ih hleave (by
      intro u hu hnot t ht
      obtain ⟨hne, hnot⟩ := not_or.1 fun hor => hnot (List.mem_cons.2 hor)
      rcases hextends.open_cases hu hnot with rfl | ⟨hseen, hnot⟩
      · exact absurd rfl hne
      · exact hopen u hseen hnot t (List.mem_cons_of_mem _ ht))
    refine ⟨hw', fun u hu hleft => ?_⟩
    have huinner := hextends.seen u (List.mem_cons_of_mem _ hu)
    rcases List.mem_cons.1 (hkept u huinner hleft) with rfl | hleft
    · exact absurd hu hnew
    · exact hsame u (List.mem_cons_of_mem _ hu) hleft

/-- A walk that starts with nothing closed leaves the vertex that it goes through last. -/
theorem GoesThrough.head?_left (h : GoesThrough next [v] start w) : w.left.head? = some v := by
  cases h with
  | pass hseen => cases hseen
  | enter _ _ h =>
    cases h
    rfl

theorem Settled.of_append {later earlier : List Nat} (h : Settled next (later ++ u :: earlier)) :
    ∀ t ∈ next u, t ∈ earlier ∨ Leads next t u := by
  induction later with
  | nil => exact h.1
  | cons _ _ ih => exact ih h.2

/-- In a settled list without duplicates, a neighbour that stands no later than its vertex leads
back to it. -/
theorem Settled.leads {order : List Nat} (h : Settled next order) (hnodup : order.Nodup)
    (hu : u ∈ order) (hv : v ∈ next u) (hle : order.idxOf v ≤ order.idxOf u) :
    Leads next v u := by
  obtain ⟨before, behind, rfl⟩ := List.append_of_mem hu
  refine (h.of_append v hv).resolve_left fun hbehind => ?_
  obtain ⟨-, hrest, hdisjoint⟩ := List.nodup_append.1 hnodup
  have hubefore : u ∉ before := fun hmem => hdisjoint u hmem u List.mem_cons_self rfl
  have hvbefore : v ∉ before := fun hmem =>
    hdisjoint v hmem v (List.mem_cons_of_mem _ hbehind) rfl
  have hne : u ≠ v := fun heq => (List.nodup_cons.1 hrest).1 (heq ▸ hbehind)
  rw [List.idxOf_append_of_notMem hubefore, List.idxOf_append_of_notMem hvbefore,
    List.idxOf_cons_self, List.idxOf_cons_ne _ hne] at hle
  omega

end Pathwise.Walk

/-! ## Searches -/

namespace Pathwise.Search

variable {next : Nat → List Nat} {area : Finset Nat} {s : Search} {found queue ts : List Nat}
  {v u steps : Nat}

/-- Meeting vertices finds them. -/
theorem mem_found_foldl_meet (ts : List Nat) (s : Search) :
    u ∈ (ts.foldl meet s).found ↔ u ∈ s.found ∨ u ∈ ts := by
  induction ts generalizing s with
  | nil => simp
  | cons t ts ih =>
    rw [List.foldl_cons, ih, meet, List.mem_cons]
    split
    · next ht =>
      constructor
      · exact Or.imp_right .inr
      · rintro (hu | rfl | hu)
        exacts [.inl hu, .inl ht, .inr hu]
    · rw [List.mem_cons, or_assoc, or_left_comm]

/-- Those of them that are new join the queue, and nothing leaves it. -/
theorem mem_queue_foldl_meet (ts : List Nat) (s : Search) :
    u ∈ (ts.foldl meet s).queue ↔ u ∈ s.queue ∨ u ∈ ts ∧ u ∉ s.found := by
  induction ts generalizing s with
  | nil => simp
  | cons t ts ih =>
    rw [List.foldl_cons, ih, meet]
    split
    · next ht =>
      have hne : u ∉ s.found → u ≠ t := fun hu heq => hu (heq ▸ ht)
      rw [List.mem_cons]
      tauto
    · next ht =>
      by_cases hut : u = t
      · simp [hut, ht]
      · simp [hut]

/-- How often a search may still go on: from what is in the queue, and from what was not found. -/
def pending (area : Finset Nat) (s : Search) : Nat :=
  s.queue.length + (area \ s.found.toFinset).card

/-- What joins the queue is not to be found any more. -/
theorem pending_foldl_meet (hts : ∀ t ∈ ts, t ∈ area) (s : Search) :
    pending area (ts.foldl meet s) ≤ pending area s := by
  induction ts generalizing s with
  | nil => exact Nat.le_refl _
  | cons t ts ih =>
    refine (ih (fun u hu => hts u (List.mem_cons_of_mem _ hu)) _).trans ?_
    rw [meet]
    split
    · exact Nat.le_refl _
    · next hnew =>
      have hmem : t ∈ area \ s.found.toFinset := by simp [hts t List.mem_cons_self, hnew]
      have hpos := Finset.card_pos.2 ⟨t, hmem⟩
      simp only [pending, List.length_cons, List.toFinset_cons, Finset.sdiff_insert,
        Finset.card_erase_of_mem hmem]
      omega

/-- A search that is under way in an area: from what it has found it has gone on, or has it in the
queue. -/
structure Underway (next : Nat → List Nat) (area : Finset Nat) (s : Search) : Prop where
  /-- What is in the queue was found in the area. -/
  queued : ∀ u ∈ s.queue, u ∈ s.found ∧ u ∈ area
  /-- The neighbours of anything else that was found were found. -/
  closed : ∀ u ∈ s.found, u ∈ s.queue ∨ ∀ t ∈ next u, t ∈ s.found

/-- Going on from one vertex. -/
theorem Underway.step (harea : ∀ u ∈ area, ∀ t ∈ next u, t ∈ area)
    (h : Underway next area ⟨found, v :: queue⟩) :
    Underway next area ((next v).foldl meet ⟨found, queue⟩) where
  queued := by
    intro u hu
    rw [mem_found_foldl_meet]
    rcases (mem_queue_foldl_meet _ _).1 hu with hu | ⟨hu, -⟩
    · exact (h.queued u (List.mem_cons_of_mem _ hu)).imp_left .inl
    · exact ⟨.inr hu, harea v (h.queued v List.mem_cons_self).2 u hu⟩
  closed := by
    intro u hu
    simp only [mem_found_foldl_meet, mem_queue_foldl_meet] at hu ⊢
    by_cases hfound : u ∈ found
    · rcases h.closed u hfound with hqueue | hclosed
      · rcases List.mem_cons.1 hqueue with rfl | hqueue
        · exact .inr fun t ht => .inr ht
        · exact .inl (.inl hqueue)
      · exact .inr fun t ht => .inl (hclosed t ht)
    · exact .inl (.inr ⟨hu.resolve_left hfound, hfound⟩)

/-- A search that may go on often enough ends with nothing in the queue. It has found what it had
found before, and besides only what can be reached from there. -/
theorem Underway.run (harea : ∀ u ∈ area, ∀ t ∈ next u, t ∈ area) (h : Underway next area s)
    (hsteps : pending area s ≤ steps) :
    (∀ u ∈ (s.run next steps).found, ∀ t ∈ next u, t ∈ (s.run next steps).found) ∧
      (∀ u ∈ s.found, u ∈ (s.run next steps).found) ∧
      ∀ u ∈ (s.run next steps).found, u ∈ s.found ∨ ∃ t ∈ s.queue, Walk.Leads next t u := by
  induction steps generalizing s with
  | zero =>
    have hnil : s.queue = [] :=
      List.length_eq_zero_iff.1 (Nat.le_zero.1 (Nat.le_of_add_right_le hsteps))
    refine ⟨fun u hu => (h.closed u hu).resolve_left ?_, fun _ hu => hu, fun _ hu => .inl hu⟩
    rw [hnil]
    exact List.not_mem_nil
  | succ steps ih =>
    obtain ⟨found, queue⟩ := s
    cases queue with
    | nil =>
      exact ⟨fun u hu => (h.closed u hu).resolve_left List.not_mem_nil, fun _ hu => hu,
        fun _ hu => .inl hu⟩
    | cons v queue =>
      rw [Search.run]
      have hnext := harea v (h.queued v List.mem_cons_self).2
      have hless : pending area ((next v).foldl meet ⟨found, queue⟩) ≤ steps := by
        have hle := pending_foldl_meet hnext ⟨found, queue⟩
        simp only [pending, List.length_cons] at hle hsteps
        simp only [pending]
        omega
      obtain ⟨hclosed, hkept, hfrom⟩ := ih (h.step harea) hless
      refine ⟨hclosed, fun u hu => hkept u ((mem_found_foldl_meet _ _).2 (.inl hu)), ?_⟩
      intro u hu
      rcases hfrom u hu with hu | ⟨t, ht, hpath⟩
      · rcases (mem_found_foldl_meet _ _).1 hu with hu | hu
        · exact .inl hu
        · exact .inr ⟨v, List.mem_cons_self, .single hu⟩
      · rcases (mem_queue_foldl_meet _ _).1 ht with ht | ⟨ht, -⟩
        · exact .inr ⟨t, List.mem_cons_of_mem _ ht, hpath⟩
        · exact .inr ⟨v, List.mem_cons_self, .head ht hpath⟩

/-- A search finds what can be reached from its queue. -/
theorem Underway.mem_found_iff (harea : ∀ u ∈ area, ∀ t ∈ next u, t ∈ area)
    (h : Underway next area s) (hsteps : pending area s ≤ steps) :
    u ∈ (s.run next steps).found ↔ u ∈ s.found ∨ ∃ t ∈ s.queue, Walk.Leads next t u := by
  obtain ⟨hclosed, hkept, hfrom⟩ := h.run harea hsteps
  refine ⟨hfrom u, ?_⟩
  rintro (hu | ⟨t, ht, hpath⟩)
  · exact hkept u hu
  · induction hpath with
    | refl => exact hkept t (h.queued t ht).1
    | tail _ hstep ih => exact hclosed _ ih _ hstep

end Pathwise.Search
