/-
  Bluebox.Nick.Moves

  What the two sides can do to the ledger, and that each move keeps the
  invariant: a home claims a nick or saves one of its users, and a side accepts
  a claim, rejects it, or hears of a save.
-/
import Bluebox.Nick.Ledger

namespace Bluebox.Nick

open Bluebox.Lib

section Moves

variable {U N T C : Type} [DecidableEq U] (R : Rules U N T C)

-- ============================================================================
-- Moves
-- ============================================================================

/-- A home says something about its own user, and it is so. -/
def Ledger.speak (L : Ledger U N T) (m : Word U N T) : Ledger U N T :=
  { L with
    cur := fun v => hear v (L.cur v) m
    link := Function.update L.link (R.home m.subject) (L.link (R.home m.subject) ++ [m])
    past := Function.update L.past m.subject (m.stamp :: L.past m.subject) }

/-- The first word of a link arrives. -/
def Ledger.arrive (L : Ledger U N T) (y : Side) (m : Word U N T) (rest : List (Word U N T)) :
    Ledger U N T :=
  { L with
    told := fun v => if R.home v = y then hear v (L.told v) m else L.told v
    link := Function.update L.link y rest }

/-- The other side notes what it has for a user. -/
def Ledger.note (L : Ledger U N T) (u : U) (h : Holding N T) : Ledger U N T :=
  { L with seen := Function.update L.seen u (some h) }

/-- A side tells the home of a user that it saved the user. -/
def Ledger.tell (L : Ledger U N T) (x : Side) (u : U) (t : T) : Ledger U N T :=
  { L with link := Function.update L.link x (L.link x ++ [.save u t]) }

-- ============================================================================
-- The homes and the links
-- ============================================================================

variable {R} {L : Ledger U N T} {y : Side} {m : Word U N T} {rest : List (Word U N T)} {u : U}
  {n : N} {t : T}

theorem Ledger.speak_cur_of_ne {v : U} (hv : m.subject ≠ v) : (L.speak R m).cur v = L.cur v :=
  hear_of_ne hv

theorem Ledger.speak_link_self : (L.speak R m).link (R.home m.subject)
    = L.link (R.home m.subject) ++ [m] := Function.update_self ..

theorem Ledger.speak_link_of_ne {x : Side} (hx : x ≠ R.home m.subject) :
    (L.speak R m).link x = L.link x := Function.update_of_ne hx ..

theorem Ledger.speak_link (R : Rules U N T C) (L : Ledger U N T) (m : Word U N T) (x : Side) :
    (L.speak R m).link x = L.link x ∨ x = R.home m.subject ∧ (L.speak R m).link x = L.link x ++ [m] := by
  by_cases hx : x = R.home m.subject
  · subst hx
    exact Or.inr ⟨rfl, Ledger.speak_link_self⟩
  · exact Or.inl (Ledger.speak_link_of_ne hx)

theorem Ledger.mem_speak_link {b : Word U N T} {x : Side} (hb : b ∈ L.link x) :
    b ∈ (L.speak R m).link x := by
  rcases Ledger.speak_link R L m x with heq | ⟨-, heq⟩
  · rwa [heq]
  · rw [heq]
    exact List.mem_append_left _ hb

theorem Ledger.arrive_link_self : (L.arrive R y m rest).link y = rest := Function.update_self ..

theorem Ledger.arrive_link_of_ne {x : Side} (hx : x ≠ y) :
    (L.arrive R y m rest).link x = L.link x := Function.update_of_ne hx ..

theorem Ledger.mem_arrive_link (hlink : L.link y = m :: rest) {b : Word U N T} {x : Side}
    (hb : b ∈ L.link x) (hne : b ≠ m) : b ∈ (L.arrive R y m rest).link x := by
  by_cases hx : x = y
  · subst hx
    rw [hlink] at hb
    rw [Ledger.arrive_link_self]
    exact (List.mem_cons.mp hb).resolve_left hne
  · rwa [Ledger.arrive_link_of_ne hx]

theorem Ledger.arrive_told_home {v : U} (hv : R.home v = y) :
    (L.arrive R y m rest).told v = hear v (L.told v) m := if_pos hv

theorem Ledger.arrive_told_claim {new : Bool} (rest : List (Word U N T)) (hu : R.home u = y) :
    (L.arrive R y (.claim new u n t) rest).told u = some (.named n t) := by
  rw [Ledger.arrive_told_home hu, hear_claim]

theorem Ledger.arrive_told_save (rest : List (Word U N T)) (hu : R.home u = y) :
    (L.arrive R y (.save u t) rest).told u = some .saved := by
  rw [Ledger.arrive_told_home hu, hear_save]

theorem Ledger.arrive_told_of_ne {v : U} (hv : m.subject ≠ v) :
    (L.arrive R y m rest).told v = L.told v := by
  unfold Ledger.arrive
  dsimp only
  rw [hear_of_ne hv, ite_self]

theorem Ledger.arrive_told_away {v : U} (hv : R.home v ≠ y) :
    (L.arrive R y m rest).told v = L.told v := if_neg hv

omit [DecidableEq U] in
theorem Ledger.tell_link_self : (L.tell y u t).link y = L.link y ++ [.save u t] :=
  Function.update_self ..

omit [DecidableEq U] in
theorem Ledger.tell_link_of_ne {x : Side} (hx : x ≠ y) : (L.tell y u t).link x = L.link x :=
  Function.update_of_ne hx ..

theorem hear_named {h : Option (Holding N T)} (hm : hear u h m = some (.named n t)) :
    m.subject = u ∧ m.stamp = t ∨ h = some (.named n t) := by
  by_cases hu : m.subject = u
  · left
    cases m with
    | claim new v n' t' =>
      obtain rfl : v = u := hu
      rw [hear_claim] at hm
      cases hm
      exact ⟨rfl, rfl⟩
    | save v t' =>
      obtain rfl : v = u := hu
      rw [hear_save] at hm
      cases hm
  · right
    rwa [hear_of_ne hu] at hm

theorem Core.speak (hL : Core R L) (hlegal : Legal R (R.home m.subject) L.cur m)
    (hapart : ∀ u v n t n' t', R.home u = R.home m.subject → R.home v = R.home m.subject →
      hear u (L.cur u) m = some (.named n t) → hear v (L.cur v) m = some (.named n' t') →
      R.fold n = R.fold n' → u = v)
    (htenure : ∀ n t, hear m.subject (L.cur m.subject) m = some (.named n t) →
      Tenure R m.subject n t (L.told m.subject) (L.link (R.home m.subject) ++ [m])) :
    Core R (L.speak R m) := by
  have hgrow : ∀ u t, t ∈ L.past u → t ∈ (L.speak R m).past u := by
    intro u t ht
    by_cases hu : u = m.subject
    · subst hu
      simp [Ledger.speak, ht]
    · simpa [Ledger.speak, hu] using ht
  refine ⟨fun x => ?_, fun u n t hcur => ?_, fun u n t hcur => ?_, fun u n t htold => ?_,
    fun x b hb => ?_⟩
  · by_cases hx : x = R.home m.subject
    · subst hx
      rw [Ledger.speak_link_self]
      exact (hL.stream (R.home m.subject)).snoc hlegal hapart
    · rw [Ledger.speak_link_of_ne hx]
      refine (hL.stream x).congr (fun _ _ => rfl) fun u hu => Ledger.speak_cur_of_ne fun heq => ?_
      rw [heq, hu] at hx
      exact hx rfl
  · by_cases hu : m.subject = u
    · subst hu
      rw [Ledger.speak_link_self]
      exact htenure n t hcur
    · have ht := hL.tenure u n t ((Ledger.speak_cur_of_ne hu).symm.trans hcur)
      by_cases hx : R.home u = R.home m.subject
      · rw [hx] at ht ⊢
        rw [Ledger.speak_link_self]
        exact ht.snoc_of_ne hu
      · rw [Ledger.speak_link_of_ne hx]
        exact ht
  · rcases hear_named hcur with ⟨rfl, rfl⟩ | hcur
    · simp [Ledger.speak]
    · exact hgrow u t (hL.past_cur u n t hcur)
  · exact hgrow u t (hL.past_told u n t htold)
  · by_cases hx : x = R.home m.subject
    · subst hx
      rw [Ledger.speak_link_self] at hb
      rcases List.mem_append.mp hb with hb | hb
      · exact hgrow _ _ (hL.past_link _ b hb)
      · obtain rfl := List.mem_singleton.mp hb
        simp [Ledger.speak]
    · rw [Ledger.speak_link_of_ne hx] at hb
      exact hgrow _ _ (hL.past_link x b hb)

theorem Core.arrive (hL : Core R L) (hlink : L.link y = m :: rest) :
    Core R (L.arrive R y m rest) := by
  refine ⟨fun x => ?_, fun u n t hcur => ?_, hL.past_cur, fun u n t ht => ?_, fun x b hb => ?_⟩
  · by_cases hx : x = y
    · subst hx
      have hs := hL.stream x
      rw [hlink] at hs
      rw [Ledger.arrive_link_self]
      exact hs.pop.congr (fun v hv => Ledger.arrive_told_home hv) fun _ _ => rfl
    · rw [Ledger.arrive_link_of_ne hx]
      exact (hL.stream x).congr (fun v hv => Ledger.arrive_told_away (hv ▸ hx)) fun _ _ => rfl
  · have ht := hL.tenure u n t hcur
    by_cases hu : R.home u = y
    · rw [hu, hlink] at ht
      rw [hu, Ledger.arrive_link_self, Ledger.arrive_told_home hu]
      exact ht.pop
    · rw [Ledger.arrive_link_of_ne hu, Ledger.arrive_told_away hu]
      exact ht
  · by_cases hu : R.home u = y
    · rw [Ledger.arrive_told_home hu] at ht
      rcases hear_named ht with ⟨rfl, rfl⟩ | ht
      · exact hL.past_link y m (by rw [hlink]; exact List.mem_cons_self)
      · exact hL.past_told u n t ht
    · rw [Ledger.arrive_told_away hu] at ht
      exact hL.past_told u n t ht
  · by_cases hx : x = y
    · subst hx
      rw [Ledger.arrive_link_self] at hb
      exact hL.past_link x b (by rw [hlink]; exact List.mem_cons_of_mem _ hb)
    · rw [Ledger.arrive_link_of_ne hx] at hb
      exact hL.past_link x b hb

/-- A save that goes home says nothing about the users of its sender. -/
theorem Core.tell (hL : Core R L) (hu : R.home u ≠ y) (ht : t ∈ L.past u) :
    Core R (L.tell y u t) := by
  have hne : ∀ v, R.home v = y → (Word.save u t : Word U N T).subject ≠ v := by
    rintro v hv (rfl : u = v)
    exact hu hv
  refine ⟨fun x => ?_, fun v n' t' hcur => ?_, hL.past_cur, hL.past_told, fun x b hb => ?_⟩
  · by_cases hx : x = y
    · subst hx
      have hs := hL.stream x
      have hsame : ∀ v, R.home v = x → L.cur v = hear v (L.cur v) (.save u t) := fun v hv =>
        (hear_of_ne (hne v hv)).symm
      rw [Ledger.tell_link_self]
      refine (hs.snoc (m := .save u t) (fun h => absurd h hu) ?_).congr (fun _ _ => rfl) hsame
      intro v w n₁ t₁ n₂ t₂ hv hw
      rw [← hsame v hv, ← hsame w hw, ← hs.reads v hv, ← hs.reads w hw]
      exact hs.apart _ (List.prefix_refl _) v w n₁ t₁ n₂ t₂ hv hw
    · rw [Ledger.tell_link_of_ne hx]
      exact hL.stream x
  · have hten := hL.tenure v n' t' hcur
    by_cases hv : R.home v = y
    · rw [hv] at hten ⊢
      rw [Ledger.tell_link_self]
      exact hten.snoc_of_ne (hne v hv)
    · rw [Ledger.tell_link_of_ne hv]
      exact hten
  · by_cases hx : x = y
    · subst hx
      rw [Ledger.tell_link_self] at hb
      rcases List.mem_append.mp hb with hb | hb
      · exact hL.past_link x b hb
      · obtain rfl := List.mem_singleton.mp hb
        exact ht
    · rw [Ledger.tell_link_of_ne hx] at hb
      exact hL.past_link x b hb

theorem Core.note (hL : Core R L) (u : U) (h : Holding N T) : Core R (L.note u h) :=
  ⟨hL.stream, hL.tenure, hL.past_cur, hL.past_told, hL.past_link⟩

/-- Claims come from home. -/
theorem Core.claim_home (hL : Core R L) {x : Side} {new : Bool}
    (h : .claim new u n t ∈ L.link x) : R.home u = x := by
  obtain ⟨pre, -, hlegal⟩ := (hL.stream x).legal.of_mem h
  exact hlegal.1

-- ============================================================================
-- What a home does
-- ============================================================================

theorem Inv.empty : Inv R (Ledger.empty : Ledger U N T) := by
  refine ⟨⟨fun x => ⟨fun _ _ => rfl, ?_, atEach_nil⟩, ?_, ?_, ?_, ?_⟩, ?_, fun _ => Or.inl rfl,
    fun _ => atEach_nil⟩
  · intro pre hpre u v n t n' t' _ _ hn
    obtain rfl := List.prefix_nil.mp hpre
    cases hn
  · exact fun _ _ _ h => by cases h
  · exact fun _ _ _ h => by cases h
  · exact fun _ _ _ h => by cases h
  · exact fun _ _ h => absurd h List.not_mem_nil
  · intro x u v n t n' t' hn
    unfold Ledger.view Ledger.empty at hn
    simp at hn

omit [DecidableEq U] in
/-- Saves stay in order when no claim of the link comes to stand again. -/
theorem SaveOk.of_cur {L' : Ledger U N T} {x : Side} {pre : List (Word U N T)}
    (hok : SaveOk R L x pre m)
    (hcur : ∀ v n t, m = .save v t → L'.cur v = some (.named n t) →
      ∃ n₀, L.cur v = some (.named n₀ t) ∧ R.fold n₀ = R.fold n)
    (hlive : ∀ new w n t, .claim new w n t ∈ pre → L'.Live w t → L.Live w t) :
    SaveOk R L' x pre m := by
  intro v t n hm hv hn
  obtain ⟨n₀, hn₀, hfold⟩ := hcur v n t hm hn
  obtain ⟨⟨new, w, n', t', hmem, hn', hloser⟩, hall⟩ := hok v t n₀ hm hv hn₀
  refine ⟨⟨new, w, n', t', hmem, hn'.trans hfold, hloser⟩, fun new w n' t' hmem hn' hl => ?_⟩
  exact hall new w n' t' hmem (hn'.trans hfold.symm) (hlive new w n' t' hmem hl)

omit [DecidableEq U] in
/-- What a side has stays right when what it told is still under way. -/
theorem SeenOk.mono {L' : Ledger U N T} {v : U} (hs : SeenOk R L v) (hseen : L'.seen v = L.seen v)
    (htold : L'.told v = L.told v)
    (hlive : ∀ n t, L.told v = some (.named n t) → L'.Live v t → L.Live v t)
    (hlink : ∀ t, L.Live v t → .save v t ∈ L.link (R.home v).other →
      .save v t ∈ L'.link (R.home v).other) : SeenOk R L' v := by
  unfold SeenOk
  rw [hseen, htold]
  refine hs.imp_right fun hsaved => ⟨hsaved.1, ?_⟩
  obtain ⟨n, t, hn, hsave⟩ := hsaved.2
  refine ⟨n, t, hn, fun hl => ?_⟩
  have hl := hlive n t hn hl
  exact hlink t hl (hsave hl)

/-- A home claims a nick that nobody else has there: with a new stamp, or as a
    change of case. -/
theorem Inv.claim (hL : Inv R L) {new : Bool} (hnew : new = true ↔ L.cur u = none)
    (hother : ∀ v, v ≠ u → ∀ n' t', L.view R (R.home u) v = some (.named n' t') →
      R.fold n' ≠ R.fold n)
    (hstamp : ∀ n₀ t₀, L.cur u = some (.named n₀ t₀) → R.fold n₀ = R.fold n → t₀ = t)
    (hfresh : t ∈ L.past u → ∃ n₀, L.cur u = some (.named n₀ t) ∧ R.fold n₀ = R.fold n) :
    Inv R (L.speak R (.claim new u n t)) := by
  have hself : (L.speak R (.claim new u n t)).cur u = some (.named n t) :=
    hear_claim new u n t _
  have hcur : ∀ v, v ≠ u → (L.speak R (.claim new u n t)).cur v = L.cur v := fun v hv =>
    Ledger.speak_cur_of_ne (Ne.symm hv)
  -- a claim that was made stands now only if it stood before
  have hlive : ∀ v t', t' ∈ L.past v → (L.speak R (.claim new u n t)).Live v t' → L.Live v t' := by
    rintro v t' hpast ⟨n', hn'⟩
    by_cases hv : v = u
    · subst hv
      cases hself.symm.trans hn'
      obtain ⟨n₀, hn₀, -⟩ := hfresh hpast
      exact ⟨n₀, hn₀⟩
    · exact ⟨n', (hcur v hv).symm.trans hn'⟩
  have hunique : ∀ x, Apart R ((L.speak R (.claim new u n t)).view R x) := by
    intro x
    have hviews : ∀ v, v ≠ u → (L.speak R (.claim new u n t)).view R x v = L.view R x v := by
      intro v hv
      rw [Ledger.view, Ledger.view, hcur v hv]
      rfl
    by_cases hx : R.home u = x
    · subst hx
      exact (hL.unique _).set ((Ledger.view_home R _ rfl).trans hself) hviews hother
    · refine (hL.unique x).mono fun v n' t' hv => ?_
      by_cases hvu : v = u
      · rw [hvu, Ledger.view_away R _ hx] at hv
        rw [hvu, Ledger.view_away R _ hx]
        exact hv
      · exact (hviews v hvu).symm.trans hv
  refine ⟨hL.toCore.speak ⟨rfl, hnew, hstamp⟩ ?_ ?_, hunique, fun v => ?_, fun x => ?_⟩
  · intro v w n₁ t₁ n₂ t₂ hv hw hn₁ hn₂
    exact hunique (R.home u) v w n₁ t₁ n₂ t₂ ((Ledger.view_home R _ hv).trans hn₁)
      ((Ledger.view_home R _ hw).trans hn₂)
  · intro n' t' hn'
    cases hself.symm.trans hn'
    by_cases hpast : t ∈ L.past u
    · obtain ⟨n₀, hn₀, hfold⟩ := hfresh hpast
      exact (hL.tenure u n₀ t hn₀).snoc_case new hfold.symm
    · exact tenure_fresh (fun n₀ hn₀ => hpast (hL.past_told u n₀ t hn₀))
        (fun new₁ n₁ hmem => hpast (hL.past_link _ _ hmem)) new n
  · refine (hL.seen v).mono rfl rfl (fun n₁ t₁ htold => hlive v t₁ (hL.past_told v n₁ t₁ htold)) ?_
    exact fun _ _ hmem => Ledger.mem_speak_link hmem
  · have hold : AtEach (SaveOk R (L.speak R (.claim new u n t)) x) (L.link x) := by
      refine (hL.saves x).mono fun pre b hb hpre hok => hok.of_cur (fun v n₁ t₁ hm hn₁ => ?_) ?_
      · subst hm
        by_cases hv : v = u
        · subst hv
          cases hself.symm.trans hn₁
          exact hfresh (hL.past_link x _ hb)
        · exact ⟨n₁, (hcur v hv).symm.trans hn₁, rfl⟩
      · exact fun new₁ w n₁ t₁ hmem => hlive w t₁ (hL.past_link x _ (hpre hmem))
    rcases Ledger.speak_link R L (.claim new u n t) x with heq | ⟨-, heq⟩
    · rwa [heq]
    · rw [heq]
      refine hold.snoc fun v t₁ n₁ hm => ?_
      cases hm

/-- A home saves one of its users. -/
theorem Inv.save (hL : Inv R L) (hu : L.cur u = some (.named n t)) :
    Inv R (L.speak R (.save u t)) := by
  have hcur : ∀ v n' t', (L.speak R (.save u t)).cur v = some (.named n' t') →
      L.cur v = some (.named n' t') := by
    intro v n' t' hv
    by_cases hvu : u = v
    · subst hvu
      cases (hear_save u t (L.cur u)).symm.trans hv
    · have hne : (Word.save u t : Word U N T).subject ≠ v := hvu
      exact (Ledger.speak_cur_of_ne hne).symm.trans hv
  have hlive : ∀ v t', (L.speak R (.save u t)).Live v t' → L.Live v t' := fun v t' h =>
    h.imp fun n' => hcur v n' t'
  have hunique : ∀ x, Apart R ((L.speak R (.save u t)).view R x) := by
    refine fun x => (hL.unique x).mono fun v n' t' hv => ?_
    by_cases hx : R.home v = x
    · rw [Ledger.view_home R _ hx] at hv ⊢
      exact hcur v n' t' hv
    · rw [Ledger.view_away R _ hx] at hv ⊢
      exact hv
  refine ⟨hL.toCore.speak (fun _ => ⟨n, hu⟩) ?_ ?_, hunique, fun v => ?_, fun x => ?_⟩
  · intro v w n₁ t₁ n₂ t₂ hv hw hn₁ hn₂
    exact hunique (R.home u) v w n₁ t₁ n₂ t₂ ((Ledger.view_home R _ hv).trans hn₁)
      ((Ledger.view_home R _ hw).trans hn₂)
  · intro n' t' hn'
    cases (hear_save u t (L.cur u)).symm.trans hn'
  · exact (hL.seen v).mono rfl rfl (fun _ t₁ _ => hlive v t₁) fun _ _ hmem =>
      Ledger.mem_speak_link hmem
  · have hold : AtEach (SaveOk R (L.speak R (.save u t)) x) (L.link x) :=
      (hL.saves x).mono fun pre b _ _ hok => hok.of_cur
        (fun v n₁ t₁ _ hn₁ => ⟨n₁, hcur v n₁ t₁ hn₁, rfl⟩) fun _ w _ t₁ _ => hlive w t₁
    rcases Ledger.speak_link R L (.save u t) x with heq | ⟨hx, heq⟩
    · rwa [heq]
    · rw [heq]
      refine hold.snoc fun v t₁ n₁ hm hv => ?_
      cases hm
      exact absurd hx.symm hv

-- ============================================================================
-- What the other side does
-- ============================================================================

/-- What was ahead of a save and has arrived is not missed when it does not take
    the nick of a standing claim away. -/
theorem Inv.saves_arrive (hL : Inv R L) (hlink : L.link y = m :: rest)
    (hskip : ∀ new u n t, m = .claim new u n t → ∀ v n' t', R.home v ≠ y →
      L.cur v = some (.named n' t') → R.fold n = R.fold n' → R.loser v t' u t = .second) :
    ∀ x, AtEach (SaveOk R L x) ((L.arrive R y m rest).link x) := by
  intro x
  by_cases hx : x = y
  · subst hx
    have hsaves := hL.saves x
    rw [hlink] at hsaves
    rw [Ledger.arrive_link_self]
    refine hsaves.tail.mono fun pre b _ _ hok v t n hb hv hn => ?_
    obtain ⟨⟨new, w, n', t', hmem, hfold, hloser⟩, hall⟩ := hok v t n hb hv hn
    refine ⟨?_, fun new w n' t' hmem => hall new w n' t' (List.mem_cons_of_mem _ hmem)⟩
    rcases List.mem_cons.mp hmem with heq | hmem
    · exact absurd (hskip new w n' t' heq.symm v n t hv hn hfold) hloser
    · exact ⟨new, w, n', t', hmem, hfold, hloser⟩
  · rw [Ledger.arrive_link_of_ne hx]
    exact hL.saves x

/-- A word about one user leaves the others as they are. -/
theorem SeenOk.arrive {v : U} (hs : SeenOk R L v) (hlink : L.link y = m :: rest)
    (hv : m.subject ≠ v) : SeenOk R (L.arrive R y m rest) v := by
  refine hs.mono rfl (Ledger.arrive_told_of_ne hv) (fun _ _ _ h => h) fun t _ hmem =>
    Ledger.mem_arrive_link hlink hmem fun heq => hv ?_
  rw [← heq]
  rfl

theorem SeenOk.note {v : U} {h : Holding N T} (hs : SeenOk R L v) (hv : v ≠ u) :
    SeenOk R (L.note u h) v :=
  hs.mono (Function.update_of_ne hv ..) rfl (fun _ _ _ h => h) fun _ _ h => h

theorem Ledger.view_note_of_ne {v : U} {h : Holding N T} {x : Side} (hv : v ≠ u) :
    (L.note u h).view R x v = L.view R x v := by
  unfold Ledger.view Ledger.note
  dsimp only
  rw [Function.update_of_ne hv]

theorem Ledger.view_note_home {h : Holding N T} {x : Side} (hu : R.home u = x) :
    (L.note u h).view R x u = L.view R x u := by
  rw [Ledger.view_home R _ hu, Ledger.view_home R _ hu]
  rfl

theorem Ledger.view_note_away {h : Holding N T} {x : Side} (hu : R.home u ≠ x) :
    (L.note u h).view R x u = some h := by
  rw [Ledger.view_away R _ hu]
  exact Function.update_self ..

/-- Taking a nick away leaves the others apart. -/
theorem Apart.note_saved {x : Side} (hx : Apart R (L.view R x)) :
    Apart R ((L.note u .saved).view R x) := by
  refine hx.mono fun v n' t' hv => ?_
  by_cases hvu : v = u
  · subst hvu
    by_cases hhome : R.home v = x
    · rwa [Ledger.view_note_home hhome] at hv
    · rw [Ledger.view_note_away hhome] at hv
      cases hv
  · rwa [Ledger.view_note_of_ne hvu] at hv

/-- The other side accepts a claim to a nick that nobody else has there. -/
theorem Inv.accept (hL : Inv R L) {new : Bool} (hlink : L.link y = .claim new u n t :: rest)
    (hother : ∀ v, v ≠ u → ∀ n' t', L.view R y.other v = some (.named n' t') →
      R.fold n' ≠ R.fold n) :
    Inv R ((L.arrive R y (.claim new u n t) rest).note u (.named n t)) := by
  have hhome : R.home u = y := hL.toCore.claim_home (by rw [hlink]; exact List.mem_cons_self)
  refine ⟨(hL.toCore.arrive hlink).note _ _, fun x => ?_, fun v => ?_, ?_⟩
  · by_cases hx : x = y.other
    · subst hx
      have haway : R.home u ≠ y.other := fun h => Side.other_ne y (h.symm.trans hhome)
      exact Apart.set (hL.unique y.other) (Ledger.view_note_away haway)
        (fun v hv => Ledger.view_note_of_ne hv) hother
    · have hx : R.home u = x := hhome.trans (by cases x <;> cases y <;> first | rfl | exact absurd rfl hx)
      refine (hL.unique x).mono fun v n' t' hv => ?_
      by_cases hvu : v = u
      · subst hvu
        rwa [Ledger.view_note_home hx] at hv
      · rwa [Ledger.view_note_of_ne hvu] at hv
  · by_cases hv : v = u
    · subst hv
      left
      exact (Function.update_self ..).trans (Ledger.arrive_told_claim rest hhome).symm
    · exact ((hL.seen v).arrive hlink (Ne.symm hv)).note hv
  · refine hL.saves_arrive hlink fun new₁ u₁ n₁ t₁ heq v n' t' hv hn' hfold => ?_
    cases heq
    have hview := (Ledger.view_home R L (Side.eq_other_of_ne hv)).trans hn'
    exact absurd hfold.symm (hother v (fun h => hv (h ▸ hhome)) n' t' hview)

/-- The other side rejects a claim and tells the home. -/
theorem Inv.reject (hL : Inv R L) {new : Bool} (hlink : L.link y = .claim new u n t :: rest)
    (hwins : ∀ v n' t', R.home v = y.other → L.cur v = some (.named n' t') →
      R.fold n' = R.fold n → R.loser v t' u t = .second)
    (hok : SaveOk R L y.other (L.link y.other) (.save u t)) :
    Inv R (((L.arrive R y (.claim new u n t) rest).note u .saved).tell y.other u t) := by
  have hmem : .claim new u n t ∈ L.link y := by rw [hlink]; exact List.mem_cons_self
  have hhome : R.home u = y := hL.toCore.claim_home hmem
  have haway : R.home u ≠ y.other := fun h => Side.other_ne y (h.symm.trans hhome)
  have htell : ∀ {x b}, b ∈ ((L.arrive R y (.claim new u n t) rest).note u .saved).link x →
      b ∈ (((L.arrive R y (.claim new u n t) rest).note u .saved).tell y.other u t).link x := by
    intro x b hb
    by_cases hx : x = y.other
    · subst hx
      rw [Ledger.tell_link_self]
      exact List.mem_append_left _ hb
    · rwa [Ledger.tell_link_of_ne hx]
  refine ⟨((hL.toCore.arrive hlink).note _ _).tell haway (hL.past_link y _ hmem), fun x => ?_,
    fun v => ?_, fun x => ?_⟩
  · exact Apart.note_saved (hL.unique x)
  · by_cases hv : v = u
    · subst hv
      right
      refine ⟨Function.update_self .., n, t, Ledger.arrive_told_claim rest hhome, fun _ => ?_⟩
      rw [hhome, Ledger.tell_link_self]
      simp
    · exact (((hL.seen v).arrive hlink (Ne.symm hv)).note hv).mono rfl rfl (fun _ _ _ h => h)
        fun _ _ => htell
  · have hsaves := hL.saves_arrive hlink (fun new₁ u₁ n₁ t₁ heq v n' t' hv hn' hfold => by
      cases heq
      exact hwins v n' t' (Side.eq_other_of_ne hv) hn' hfold.symm) x
    by_cases hx : x = y.other
    · subst hx
      rw [Ledger.tell_link_self]
      refine hsaves.snoc ?_
      rw [Ledger.arrive_link_of_ne (Side.other_ne y)]
      exact hok
    · rw [Ledger.tell_link_of_ne hx]
      exact hsaves

/-- The other side hears that a home saved one of its users. -/
theorem Inv.save_heard (hL : Inv R L) (hlink : L.link y = .save u t :: rest) (hhome : R.home u = y) :
    Inv R ((L.arrive R y (.save u t) rest).note u .saved) := by
  refine ⟨(hL.toCore.arrive hlink).note _ _, fun x => Apart.note_saved (hL.unique x), fun v => ?_,
    hL.saves_arrive hlink fun _ _ _ _ heq => by cases heq⟩
  by_cases hv : v = u
  · subst hv
    left
    exact (Function.update_self ..).trans (Ledger.arrive_told_save rest hhome).symm
  · exact ((hL.seen v).arrive hlink (Ne.symm hv)).note hv

/-- A save that comes home finds that its claim does not stand. -/
theorem Inv.save_stale (hL : Inv R L) (hlink : L.link y = .save u t :: rest)
    (hhome : R.home u ≠ y) : ¬ L.Live u t := by
  rintro ⟨n, hn⟩
  have hsaves := hL.saves y
  rw [hlink] at hsaves
  obtain ⟨⟨_, _, _, _, hmem, -⟩, -⟩ := hsaves.head u t n rfl hhome hn
  exact absurd hmem List.not_mem_nil

/-- So the home has nothing to do. -/
theorem Inv.ignore_save (hL : Inv R L) (hlink : L.link y = .save u t :: rest)
    (hhome : R.home u ≠ y) : Inv R (L.arrive R y (.save u t) rest) := by
  refine ⟨hL.toCore.arrive hlink, hL.unique, fun v => ?_,
    hL.saves_arrive hlink fun _ _ _ _ heq => by cases heq⟩
  by_cases hv : v = u
  · subst hv
    refine (hL.seen v).mono rfl (Ledger.arrive_told_away hhome) (fun _ _ _ h => h) ?_
    intro t' hl hmem
    refine Ledger.mem_arrive_link hlink hmem fun heq => ?_
    cases heq
    exact hL.save_stale hlink hhome hl
  · exact (hL.seen v).arrive hlink (Ne.symm hv)

-- ============================================================================
-- Collisions
-- ============================================================================

/-- Who has the nick of an arriving claim is its own user, or at home there. -/
theorem Inv.holder_home (hL : Inv R L) {new : Bool} (hlink : L.link y = .claim new u n t :: rest)
    {v : U} {n' : N} {t' : T} (hv : v ≠ u) (hview : L.view R y.other v = some (.named n' t'))
    (hfold : R.fold n' = R.fold n) : R.home v = y.other ∧ L.cur v = some (.named n' t') := by
  have hhome : R.home u = y := hL.toCore.claim_home (by rw [hlink]; exact List.mem_cons_self)
  by_cases hvy : R.home v = y.other
  · rw [Ledger.view_home R L hvy] at hview
    exact ⟨hvy, hview⟩
  · have hvy' : R.home v = y := by simpa using Side.eq_other_of_ne hvy
    rw [Ledger.view_away R L hvy] at hview
    -- a nick is only seen as it was told, and users of one home are told apart
    have htold : L.told v = some (.named n' t') := by
      rcases hL.seen v with heq | ⟨hsaved, -⟩
      · rw [← heq, hview]
      · rw [hsaved] at hview
        cases hview
    have hpre : [Word.claim new u n t] <+: L.link y := by
      rw [hlink]
      exact ⟨rest, rfl⟩
    refine absurd ((hL.stream y).apart _ hpre v u n' t' n t hvy' hhome ?_ ?_ hfold) hv
    · have hne : (Word.claim new u n t : Word U N T).subject ≠ v := Ne.symm hv
      exact (hear_of_ne hne).trans htold
    · exact hear_claim new u n t _

/-- The claim that a rejected claim lost to is still under way to its home. -/
theorem Inv.winner_on_link (hL : Inv R L) {new : Bool}
    (hlink : L.link y = .claim new u n t :: rest) {w : U} {n' : N} {t' : T}
    (hw : R.home w = y.other) (hcur : L.cur w = some (.named n' t')) (hfold : R.fold n' = R.fold n)
    (hloser : R.loser u t w t' ≠ .second) (hlive : L.Live u t) :
    ∃ new' n'', .claim new' w n'' t' ∈ L.link y.other := by
  have hmem : .claim new u n t ∈ L.link y := by rw [hlink]; exact List.mem_cons_self
  have hhome : R.home u = y := hL.toCore.claim_home hmem
  have hne : w ≠ u := fun h => Side.other_ne y (hw.symm.trans (h ▸ hhome))
  have hten := hL.tenure w n' t' hcur
  rw [hw] at hten
  refine hten.announced.resolve_left ?_
  rintro ⟨n₀, hn₀⟩
  obtain ⟨n₁, hn₁⟩ := hlive
  have hfold₁ : R.fold n = R.fold n₁ := by
    have hten₁ := hL.tenure u n₁ t hn₁
    rw [hhome] at hten₁
    exact hten₁.fold_eq new n hmem
  rcases hL.seen w with heq | ⟨-, n₂, t₂, htold, hsave⟩
  · -- the home of `u` gave `u` a nick it had seen `w` with
    have hview : L.view R y w = some (.named n₀ t') := by
      rw [Ledger.view_away R L (by rw [hw]; exact Side.other_ne y), heq, hn₀]
    have hview₁ : L.view R y u = some (.named n₁ t) := (Ledger.view_home R L hhome).trans hn₁
    have hsame := ((hten.told n₀ hn₀).1.trans hfold).trans hfold₁
    exact hne (hL.unique y w u n₀ t' n₁ t hview hview₁ hsame)
  · -- or it saved `w`, and then the claim of `u` had won
    cases hn₀.symm.trans htold
    have hsaved := hsave ⟨n', hcur⟩
    rw [hw, Side.other_other, hlink] at hsaved
    have hsaves := hL.saves y
    rw [hlink] at hsaves
    have hrest := (List.mem_cons.mp hsaved).resolve_left fun h => by cases h
    obtain ⟨pre, hpre, hok⟩ := hsaves.of_mem_tail hrest
    have hfirst := (hok w t' n' rfl (by rw [hw]; exact Side.other_ne y) hcur).2 new u n t hpre
      hfold.symm ⟨n₁, hn₁⟩
    rw [R.loser_swap, hfirst] at hloser
    exact hloser rfl

/-- A standing claim to the nick, on the link back, is that of the holder. -/
theorem Inv.standing_claim (hL : Inv R L) {w v : U} {n' n'' : N} {t' t'' : T} {new : Bool}
    (hw : R.home w = y.other) (hcur : L.cur w = some (.named n' t')) (hfold : R.fold n' = R.fold n)
    (hmem : .claim new v n'' t'' ∈ L.link y.other) (hfold' : R.fold n'' = R.fold n)
    (hlive : L.Live v t'') : v = w ∧ t'' = t' := by
  have hv : R.home v = y.other := hL.toCore.claim_home hmem
  obtain ⟨n₁, hn₁⟩ := hlive
  have hten := hL.tenure v n₁ t'' hn₁
  rw [hv] at hten
  have hsame : R.fold n₁ = R.fold n' := by
    rw [← hten.fold_eq new n'' hmem, hfold', hfold]
  obtain rfl := hL.unique y.other v w n₁ t'' n' t' ((Ledger.view_home R L hv).trans hn₁)
    ((Ledger.view_home R L hw).trans hcur) hsame
  cases hn₁.symm.trans hcur
  exact ⟨rfl, rfl⟩

section Collide

variable (hL : Inv R L) {new : Bool} (hlink : L.link y = .claim new u n t :: rest) {w : U} {n' : N}
  {t' : T} (hw : R.home w = y.other) (hcur : L.cur w = some (.named n' t'))
  (hfold : R.fold n' = R.fold n)

include hL hlink hw hcur hfold

/-- The arriving claim loses. -/
theorem Inv.collide_first (hloser : R.loser u t w t' = .first) :
    Inv R (((L.arrive R y (.claim new u n t) rest).note u .saved).tell y.other u t) := by
  have hmem : .claim new u n t ∈ L.link y := by rw [hlink]; exact List.mem_cons_self
  refine hL.reject hlink (fun v n₁ t₁ hv hn₁ hfold₁ => ?_) fun v t₁ n₁ hm _ hn₁ => ?_
  · obtain rfl := hL.unique y.other v w n₁ t₁ n' t' ((Ledger.view_home R L hv).trans hn₁)
      ((Ledger.view_home R L hw).trans hcur) (hfold₁.trans hfold.symm)
    cases hn₁.symm.trans hcur
    rw [R.loser_swap, hloser]
    rfl
  · cases hm
    have hten := hL.tenure u n₁ t hn₁
    rw [hL.toCore.claim_home hmem] at hten
    have hfold₁ := hten.fold_eq new n hmem
    refine ⟨?_, fun new₂ v n₂ t₂ hmem₂ hfold₂ hlive => ?_⟩
    · obtain ⟨new', n'', hmem'⟩ := hL.winner_on_link hlink hw hcur hfold (by rw [hloser]; decide)
        ⟨n₁, hn₁⟩
      have hten' := hL.tenure w n' t' hcur
      rw [hw] at hten'
      refine ⟨new', w, n'', t', hmem', ?_, by rw [hloser]; decide⟩
      exact (hten'.fold_eq new' n'' hmem').trans (hfold.trans hfold₁)
    · obtain ⟨rfl, rfl⟩ := hL.standing_claim hw hcur hfold hmem₂ (hfold₂.trans hfold₁.symm) hlive
      exact hloser

theorem Inv.after_save : Inv R (L.speak R (.save w t')) ∧
    (L.speak R (.save w t')).link y = .claim new u n t :: rest ∧
    ∀ v, v ≠ u → ∀ n₁ t₁, (L.speak R (.save w t')).view R y.other v = some (.named n₁ t₁) →
      R.fold n₁ ≠ R.fold n := by
  have hy : y ≠ R.home (Word.save w t' : Word U N T).subject := fun h =>
    Side.other_ne y (hw.symm.trans h.symm)
  refine ⟨hL.save hcur, (Ledger.speak_link_of_ne hy).trans hlink, fun v hv n₁ t₁ hview hfold₁ => ?_⟩
  by_cases hvw : w = v
  · subst hvw
    cases ((Ledger.view_home R _ hw).trans (hear_save w t' _)).symm.trans hview
  · have hne : (Word.save w t' : Word U N T).subject ≠ v := hvw
    have hview' : L.view R y.other v = some (.named n₁ t₁) := by
      rw [← hview]
      unfold Ledger.view
      rw [Ledger.speak_cur_of_ne hne]
      rfl
    exact hvw (hL.unique y.other w v n' t' n₁ t₁ ((Ledger.view_home R L hw).trans hcur) hview'
      (hfold.trans hfold₁.symm))

/-- The holder loses. -/
theorem Inv.collide_second :
    Inv R (((L.speak R (.save w t')).arrive R y (.claim new u n t) rest).note u (.named n t)) := by
  obtain ⟨hsaved, hlink', hother⟩ := Inv.after_save hL hlink hw hcur hfold
  exact hsaved.accept hlink' hother

/-- Both lose. -/
theorem Inv.collide_both (hloser : R.loser u t w t' = .both) :
    Inv R ((((L.speak R (.save w t')).arrive R y (.claim new u n t) rest).note u .saved).tell
      y.other u t) := by
  have hmem : .claim new u n t ∈ L.link y := by rw [hlink]; exact List.mem_cons_self
  have hhome : R.home u = y := hL.toCore.claim_home hmem
  have hne : ∀ {v}, R.home v = y.other → v ≠ u := fun hv h =>
    Side.other_ne y (hv.symm.trans (h ▸ hhome))
  obtain ⟨hsaved, hlink', hother⟩ := Inv.after_save hL hlink hw hcur hfold
  refine hsaved.reject hlink' (fun v n₁ t₁ hv hn₁ hfold₁ => ?_) fun v t₁ n₁ hm _ hn₁ => ?_
  · exact absurd hfold₁ (hother v (hne hv) n₁ t₁ ((Ledger.view_home R _ hv).trans hn₁))
  · cases hm
    have hwu : (Word.save w t' : Word U N T).subject ≠ u := hne hw
    have hn₁' : L.cur u = some (.named n₁ t) := (Ledger.speak_cur_of_ne hwu).symm.trans hn₁
    have hten := hL.tenure u n₁ t hn₁'
    rw [hhome] at hten
    have hfold₁ := hten.fold_eq new n hmem
    refine ⟨?_, fun new₂ v n₂ t₂ hmem₂ hfold₂ hlive => ?_⟩
    · obtain ⟨new', n'', hmem'⟩ := hL.winner_on_link hlink hw hcur hfold (by rw [hloser]; decide)
        ⟨n₁, hn₁'⟩
      have hten' := hL.tenure w n' t' hcur
      rw [hw] at hten'
      refine ⟨new', w, n'', t', Ledger.mem_speak_link hmem', ?_, by rw [hloser]; decide⟩
      exact (hten'.fold_eq new' n'' hmem').trans (hfold.trans hfold₁)
    · -- the only standing claim was that of the holder
      have hv := hsaved.toCore.claim_home hmem₂
      obtain ⟨n₃, hn₃⟩ := hlive
      have hten₂ := hsaved.tenure v n₃ t₂ hn₃
      rw [hv] at hten₂
      refine absurd ?_ (hother v (hne hv) n₃ t₂ ((Ledger.view_home R _ hv).trans hn₃))
      rw [← hten₂.fold_eq new₂ n₂ hmem₂, hfold₂, hfold₁]

end Collide

-- ============================================================================
-- What the sides have after a move
-- ============================================================================

theorem Ledger.view_speak {x : Side} (hx : R.home m.subject = x) (v : U) :
    (L.speak R m).view R x v
      = if v = m.subject then hear m.subject (L.cur m.subject) m else L.view R x v := by
  by_cases hv : v = m.subject
  · subst hv
    rw [if_pos rfl]
    exact Ledger.view_home R _ hx
  · unfold Ledger.view
    rw [if_neg hv, Ledger.speak_cur_of_ne (Ne.symm hv)]
    rfl

theorem Ledger.view_speak_away {x : Side} (hx : R.home m.subject ≠ x) (v : U) :
    (L.speak R m).view R x v = L.view R x v := by
  by_cases hv : m.subject = v
  · rw [Ledger.view_away R _ (hv ▸ hx), Ledger.view_away R _ (hv ▸ hx)]
    rfl
  · unfold Ledger.view
    rw [Ledger.speak_cur_of_ne hv]
    rfl

theorem Ledger.view_note {x : Side} (hu : R.home u ≠ x) (h : Holding N T) (v : U) :
    (L.note u h).view R x v = if v = u then some h else L.view R x v := by
  by_cases hv : v = u
  · subst hv
    rw [if_pos rfl]
    exact Ledger.view_note_away hu
  · rw [if_neg hv]
    exact Ledger.view_note_of_ne hv

theorem Ledger.view_note_at_home {x : Side} (hu : R.home u = x) (h : Holding N T) (v : U) :
    (L.note u h).view R x v = L.view R x v := by
  by_cases hv : v = u
  · subst hv
    exact Ledger.view_note_home hu
  · exact Ledger.view_note_of_ne hv

-- ============================================================================
-- Agreement
-- ============================================================================

/-- When nothing is under way the two sides agree. -/
theorem Inv.agree (hL : Inv R L) (hempty : ∀ x, L.link x = []) (u : U) : L.seen u = L.cur u := by
  have htold : L.told u = L.cur u := by
    have hreads := (hL.stream (R.home u)).reads u rfl
    rw [hempty] at hreads
    exact hreads
  rcases hL.seen u with heq | ⟨-, n, t, hn, hsave⟩
  · exact heq.trans htold
  · have hmem := hsave ⟨n, htold.symm.trans hn⟩
    rw [hempty] at hmem
    exact absurd hmem List.not_mem_nil

end Moves

end Bluebox.Nick
