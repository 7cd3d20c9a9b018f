/-
Two scripts after one another.

A loop that has read all of a first stretch goes on with a second one as if it started
there.  So if the tokens of two scripts stand after one another in a text, and no
statement of the first one goes on with the tokens of the second, the statements are
those of the first script and then those of the second.
-/
import DesiredState.Proofs.Script.Transfer

namespace DesiredState

open Grammar Reading

/-- One more round of a loop that is entered. -/
theorem Reading.whileAtMost_succ {enter : Cursor → Bool} {r : Reading α} {n : Nat}
    {c middle last : Cursor} {a : α} {list : List α} (he : enter c = true)
    (ha : r c = .ok (a, middle)) (hlist : whileAtMost enter r n middle = .ok (list, last)) :
    whileAtMost enter r (n + 1) c = .ok (a :: list, last) := by
  change (if enter c then _ else _ : Reading (List α)) _ = _
  rw [if_pos he, bind_of_ok ha, bind_of_ok hlist]
  rfl

namespace Parallel

variable {T : Parallel} {size : Nat} {α β : Type} {r : Reading α} {r' : Reading β}

/-- A loop that leaves nothing of the common tokens is so many rounds on the right, and then
whatever more rounds are after the common tokens.  The induction is on the rounds on the left. -/
theorem whileAtMost_through {enter : Cursor → Bool} {R : α → β → Prop}
    (hgate : T.Gate enter fun _ => True) (ht : Takes 1 r)
    (hr : ∀ back ahead, T.Keeps size 0 back ahead r r' fun a b _ => R a b)
    (n : Nat) (back ahead : List (Token × Token)) (hat : T.pairs = back.reverse ++ ahead)
    (hsize : ahead.length ≤ size) {list : List α} {c : Cursor}
    (hrun : whileAtMost enter r n (T.cursorLeft back ahead) = .ok (list, c))
    (hend : c.rest.length = T.left.after.length) :
    ∃ list' used, List.Forall₂ R list list' ∧ used ≤ ahead.length ∧
      ∀ more list'' last,
        whileAtMost enter r' more (T.cursorRight (ahead.reverse ++ back) []) = .ok (list'', last) →
        whileAtMost enter r' (used + more) (T.cursorRight back ahead) =
          .ok (list' ++ list'', last) := by
  have hnone {back ahead : List (Token × Token)} (hc : c = T.cursorLeft back ahead) :
      ∃ list' used, List.Forall₂ R [] list' ∧ used ≤ ahead.length ∧
        ∀ more list'' last,
          whileAtMost enter r' more (T.cursorRight (ahead.reverse ++ back) []) =
            .ok (list'', last) →
          whileAtMost enter r' (used + more) (T.cursorRight back ahead) =
            .ok (list' ++ list'', last) := by
    obtain rfl : ahead = [] := by
      rw [hc] at hend
      simp only [cursorLeft, List.length_append, List.length_map] at hend
      exact List.eq_nil_of_length_eq_zero (by omega)
    refine ⟨[], 0, .nil, Nat.le_refl _, fun more list'' last h => ?_⟩
    rw [Nat.zero_add]
    exact h
  induction n generalizing back ahead list with
  | zero =>
    cases hrun
    exact hnone rfl
  | succ n ih =>
    change (if enter (T.cursorLeft back ahead) then _ else _ : Reading (List α)) _ = _ at hrun
    by_cases he : enter (T.cursorLeft back ahead)
    · rw [if_pos he] at hrun
      obtain ⟨a, middle, ha, hmore⟩ := Nesting.bind_ok hrun
      obtain ⟨others, last, hmore, hlast⟩ := Nesting.bind_ok hmore
      cases hlast
      have hone := ht _ a middle ha
      have hzero := Takes.whileAtMost (ht.mono (Nat.zero_le 1)) n _ _ _ hmore
      obtain ⟨taken, rest, b, rfl, rfl, hb, hR⟩ := hr back ahead hat hsize a middle ha (by omega)
      have hat' : T.pairs = (taken.reverse ++ back).reverse ++ rest := by simp [hat]
      simp only [cursorLeft, List.length_append, List.length_map] at hone hsize
      obtain ⟨list', used, hall, hused, hright⟩ := ih _ rest hat' (by omega) hmore
      obtain ⟨q, tail, hq⟩ : ∃ q tail, taken ++ rest = q :: tail := by
        cases taken with
        | nil => simp only [List.length_nil] at hone; omega
        | cons q tail => exact ⟨q, _, rfl⟩
      have he' : enter (T.cursorRight back (taken ++ rest)) = true := by
        rw [hq] at hat he ⊢
        rw [hgate back q tail hat trivial, he]
      refine ⟨b :: list', used + 1, .cons hR hall, ?_, fun more list'' last h => ?_⟩
      · rw [List.length_append]
        omega
      · rw [List.reverse_append, List.append_assoc] at h
        rw [Nat.add_right_comm]
        exact whileAtMost_succ he' hb (hright more list'' last h)
    · rw [if_neg he] at hrun
      cases hrun
      exact hnone rfl

/-- **Two scripts after one another** are read as the one and then the other. -/
theorem script_sequence (T U : Parallel) (hT : T.left.before = [] ∧ T.left.after = [])
    (hU : U.left.before = [] ∧ U.left.after = []) (hsource : U.right.source = T.right.source)
    (hbefore : T.right.before = [] ∧ U.right.before = (T.pairs.map Prod.snd).reverse)
    (hafter : T.right.after = U.pairs.map Prod.snd ∧ U.right.after = []) {first second : List Item}
    (hfirst : script T.left.source (T.pairs.map Prod.fst) = .ok first)
    (hsecond : script U.left.source (U.pairs.map Prod.fst) = .ok second) :
    ∃ first' second', script T.right.source (T.pairs.map Prod.snd ++ U.pairs.map Prod.snd) =
        .ok (first' ++ second') ∧
      first.map (Item.relabel T.left.look) = first'.map (Item.relabel T.right.look) ∧
      second.map (Item.relabel U.left.look) = second'.map (Item.relabel U.right.look) := by
  obtain ⟨c, hc, hitems⟩ := Grammar.script_ok hfirst
  obtain ⟨d, hd, hitems'⟩ := Grammar.script_ok hsecond
  -- Both loops, without what is made of their lists in the end.
  obtain ⟨list, c', hlist, hlast⟩ := Nesting.bind_ok hitems
  cases hlast
  obtain ⟨others, d', hothers, hlast⟩ := Nesting.bind_ok hitems'
  cases hlast
  have hcursor : (⟨[], T.pairs.map Prod.fst⟩ : Cursor) = T.cursorLeft [] T.pairs := by
    simp [cursorLeft, hT.1, hT.2]
  have hcursor' : (⟨[], U.pairs.map Prod.fst⟩ : Cursor) = U.cursorLeft [] U.pairs := by
    simp [cursorLeft, hU.1, hU.2]
  rw [hcursor] at hlist
  rw [hcursor'] at hothers
  let size := (T.pairs.map Prod.snd ++ U.pairs.map Prod.snd).length
  have hsize : size = T.pairs.length + U.pairs.length := by simp [size]
  have hfirsts := T.agrees_level (T.pairs.map Prod.fst).length size
  have hseconds := U.agrees_level (U.pairs.map Prod.fst).length size
  rw [hsource] at hseconds
  obtain ⟨list', used, hall, hused, hthrough⟩ := whileAtMost_through (gate_nextIs _)
    (takes_itemOr hfirsts (· == .semicolon)) (fun _ _ => keeps_itemOr hfirsts (· == .semicolon))
    _ [] T.pairs (by simp) (by omega) hlist (by rw [hc, hT.2])
  have hshut : U.Shut (fun c => c.nextIs fun kind => kind.startsStatement || kind == .semicolon)
      fun _ => True := by
    intro back _ _
    refine Bool.eq_false_iff.mpr fun hnext => ?_
    obtain ⟨next, rest, hnext, -⟩ := nextIs_after hnext
    rw [hafter.2] at hnext
    cases hnext
  obtain ⟨taken, rest, others', hpairs, hd', hothers', hall', -⟩ :=
    @Keeps.whileAtMost U _ 0 _ _ _ _ (fun _ => True) _ _ (gate_nextIs _) (fun _ => hshut)
      (takes_itemOr hseconds (· == .semicolon))
      (fun back ahead _ _ => (keeps_itemOr hseconds (· == .semicolon)).mono
        fun _ _ _ h => ⟨h, trivial⟩)
      _ (size - used) [] U.pairs (by simp [cursorLeft]) (by omega) trivial (by simp) (by omega)
      others d hothers (by rw [hU.2]; exact Nat.zero_le _)
  have hnil : rest = [] := by
    rw [hd'] at hd
    exact List.map_eq_nil_iff.mp (List.append_eq_nil_iff.mp hd).1
  have hmeet : T.cursorRight (T.pairs.reverse ++ []) [] = U.cursorRight [] U.pairs := by
    simp [cursorRight, hbefore.1, hbefore.2, hafter.1, hafter.2, List.map_reverse]
  rw [← hmeet] at hothers'
  have hboth := hthrough _ _ _ hothers'
  rw [Nat.add_sub_cancel' (by omega)] at hboth
  have hstart : (⟨[], T.pairs.map Prod.snd ++ U.pairs.map Prod.snd⟩ : Cursor) =
      T.cursorRight [] T.pairs := by
    simp [cursorRight, hbefore.1, hafter.1]
  refine ⟨list'.filterMap id, others'.filterMap id, ?_, map_relabel_filterMap hall,
    map_relabel_filterMap hall'⟩
  have hread : items (level T.right.source size) (· == .semicolon)
      ⟨[], T.pairs.map Prod.snd ++ U.pairs.map Prod.snd⟩ =
        .ok (list'.filterMap id ++ others'.filterMap id,
          U.cursorRight (taken.reverse ++ []) rest) := by
    unfold items
    rw [← List.filterMap_append]
    refine bind_of_ok (f := fun read : List (Option Item) => pure (read.filterMap id)) ?_
    change whileAtMost _ _ size _ = _
    rw [hstart]
    exact hboth
  have hend : (U.cursorRight (taken.reverse ++ []) rest).rest = [] := by
    simp [cursorRight, hnil, hafter.2]
  change (items (level T.right.source size) (· == .semicolon)
      ⟨[], T.pairs.map Prod.snd ++ U.pairs.map Prod.snd⟩ >>= _) = _
  rw [hread]
  generalize U.cursorRight (taken.reverse ++ []) rest = last at hend
  obtain ⟨back, ahead⟩ := last
  obtain rfl : ahead = [] := hend
  rfl

end Parallel

end DesiredState
