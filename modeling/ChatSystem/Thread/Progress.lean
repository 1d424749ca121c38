import ChatSystem.Core.Effort
import ChatSystem.Thread.Names
import ChatSystem.Thread.Sessions

/-!
# The threads get done

Between two rests of a thread, in front of `accept` or of `recv_message`, lies a bounded number of
its own steps, whatever the other threads do. Somebody can go on as long as somebody does not
rest. So the server never hangs, and without new connections and requests it comes to rest.
-/

namespace ChatSystem.Thread

open Bytes Channel Tasks Transition

/-- What `slot_send` costs. -/
def sendCost : Nat := frameMax + 4

/-- What `bcast_note` costs. -/
def noticeCost : Nat := 1 + maxClients * (sendCost + 1)

/-- What the expansion of an act costs. -/
def Act.cost : Act → Nat
  | .write _ _ rest => rest.length
  | .sendMessage _ _ | .refuse _ => frameMax + 1
  | .reply _ _ => sendCost
  | .sendActive _ _ slots => slots.length * (sendCost + 1)
  | .bcastNote _ _ => noticeCost
  | .cleanup _ => noticeCost + 2
  | .create _ _ _ => 2
  | .allot _ _ => frameMax + 4
  | .readHistory _ _ => sendCost + 1
  | .listUsers _ _ | .storeLogin _ _ => sendCost + 2
  | .validate _ _ _ => sendCost + 3
  | .checkName _ _ _ => sendCost + 4
  | .findTarget _ _ => 2 * sendCost + 3
  | .route _ _ => noticeCost + sendCost + 2
  | _ => 0

/-- The threads rest in front of `accept` and of `recv_message`; a write that is interrupted does
not get on. -/
def cost : Cost Act Input where
  stop
    | .accept | .recv _ => true
    | _ => false
  weight := Act.cost
  ok a i := ∀ fd m rest, a = .write fd m rest → i.write ≠ .interrupted

/-- The most a thread has to do behind its last rest: its cleanup. -/
def leaveCost : Nat := noticeCost + 5

/-- The most a thread has to do before it rests: a request, and its cleanup. -/
def workMax : Nat := noticeCost + sendCost + 3 + leaveCost

/-- The threads there can be behind a number of accepted connections. -/
def crew (n : Nat) : Finset Tid :=
  insert .main ((Finset.univ ×ˢ Finset.range n).image fun x => .client x.1 x.2)

variable {t : Tid} {a : Act} {i : Input} {sh : Shared} {out : Outcome Lock Tid Act Shared}
  {st st' : State} {history : History}

/-! ## The cost of the acts -/

theorem effort_slotSend (s : Slot) (m : Message) : cost.effort (slotSend s m) = sendCost := by
  simp [slotSend, Cost.effort, cost, Act.cost, sendCost]
  omega

theorem effort_route (sh : Shared) (s : Slot) (m : Message) :
    cost.effort (sh.route s m) ≤ noticeCost + sendCost + 2 := by
  have hsend : frameMax + 4 = sendCost := rfl
  have hnotice : noticeCost = 1 + maxClients * (sendCost + 1) := rfl
  have hten : maxClients * (sendCost + 1) = 10 * (sendCost + 1) := rfl
  unfold Shared.route
  split
  · unfold Shared.login
    split <;> simp [Cost.effort, cost, Act.cost] <;> omega
  · simp [Shared.logout, Cost.effort, cost, Act.cost]
    omega
  · unfold Shared.broadcast
    split <;> simp [Cost.effort, cost, Act.cost] <;> omega
  · unfold Shared.priv
    split <;> simp [Cost.effort, cost, Act.cost] <;> omega
  all_goals
    simp [Cost.effort, cost, Act.cost]
    try omega

/-- What an act expands to costs no more than the act says; only an interrupted write is tried
again. -/
theorem effort_next (h : exec t a i sh = some out) (hstop : cost.stop a = false) :
    cost.effort out.next ≤ cost.weight a ∨
      ∃ fd m rest, a = .write fd m rest ∧ i.write = .interrupted ∧
        out.next = [.act (.write fd m rest)] := by
  have hsend : frameMax + 4 = sendCost := rfl
  have hnotice : noticeCost = 1 + maxClients * (sendCost + 1) := rfl
  have hten : maxClients * (sendCost + 1) = 10 * (sendCost + 1) := rfl
  cases a with
  | accept => cases hstop
  | recv s => cases hstop
  | write fd m rest =>
    simp only [exec] at h
    split at h
    · obtain rfl := goOn_inj h
      exact Or.inl (Nat.zero_le _)
    · obtain rfl := goOn_inj h
      left
      simp [Cost.effort, cost, Act.cost]
      omega
    · next hwrite =>
      obtain rfl := goOn_inj h
      exact Or.inr ⟨_, _, _, rfl, hwrite, rfl⟩
    · obtain rfl := goOn_inj h
      exact Or.inl (Nat.zero_le _)
  | route s m =>
    obtain rfl := goOn_inj h
    exact Or.inl (effort_route sh s m)
  | sendActive skip m slots =>
    left
    simp only [exec] at h
    split at h
    · obtain rfl := goOn_inj h
      exact Nat.zero_le _
    · next j slots =>
      have hslots : cost.weight (.sendActive skip m (j :: slots)) =
          slots.length * (sendCost + 1) + (sendCost + 1) := Nat.succ_mul ..
      have hlast : cost.effort ([.act (.sendActive skip m slots)] : Code) =
          1 + slots.length * (sendCost + 1) := rfl
      split at h <;> obtain rfl := goOn_inj h
      · have happend := Cost.effort_append_le (K := cost) (slotSend j m)
          [.act (.sendActive skip m slots)]
        rw [effort_slotSend] at happend
        change cost.effort (slotSend j m ++ [.act (.sendActive skip m slots)]) ≤ _
        omega
      · change cost.effort ([.act (.sendActive skip m slots)] : Code) ≤ _
        omega
  | reply s make =>
    obtain rfl := goOn_inj h
    exact Or.inl (effort_slotSend ..).le
  | findTarget s m =>
    left
    simp only [exec] at h
    split at h <;> obtain rfl := goOn_inj h
    · simp [Cost.effort, cost, Act.cost]
      omega
    · next k _ =>
      simp [Cost.effort, cost, Act.cost, slotSend]
      omega
  | sendMessage s m =>
    left
    obtain rfl := goOn_inj h
    have hlen := length_packMessage_le_frameMax m
    simp [Cost.effort, cost, Act.cost, -length_packMessage]
    omega
  | refuse fd =>
    left
    obtain rfl := goOn_inj h
    have hlen := length_packMessage_le_frameMax (serverFull i.env.now)
    simp [Cost.effort, cost, Act.cost, -length_packMessage]
    omega
  | cleanup s =>
    left
    obtain rfl := goOn_inj h
    split <;> simp [Cost.effort, cost, Act.cost]
    omega
  | create s fd c =>
    left
    simp only [exec] at h
    split at h <;> cases h <;> simp [Cost.effort, cost, Act.cost]
  | allot | checkName | validate =>
    left
    simp only [exec] at h
    split at h <;> obtain rfl := goOn_inj h <;> simp [Cost.effort, cost, Act.cost] <;> omega
  | _ =>
    left
    obtain rfl := goOn_inj h
    simp [Cost.effort, cost, Act.cost]
    try omega

/-- Only what a rest expands to has a rest in it. -/
theorem plain_next (h : exec t a i sh = some out) (hstop : cost.stop a = false) :
    ∀ b, .act b ∈ out.next → cost.stop b = false := by
  intro b hb
  cases a with
  | accept => cases hstop
  | recv s => cases hstop
  | route s m =>
    obtain rfl := goOn_inj h
    change .act b ∈ sh.route s m at hb
    unfold Shared.route Shared.login Shared.broadcast Shared.priv Shared.logout at hb
    repeat' split at hb
    all_goals
      simp at hb
      aesop
  | _ =>
    simp only [exec] at h
    repeat' split at h
    all_goals cases h
    all_goals
      simp [slotSend] at hb
      try aesop

theorem sound_cost : cost.Sound exec where
  pays h hstop hok := by
    rcases effort_next h hstop with hle | ⟨fd, m, rest, rfl, hwrite, -⟩
    · exact hle
    · exact absurd hwrite (hok fd m rest rfl)
  keeps h hstop := by
    rcases effort_next h hstop with hle | ⟨fd, m, rest, rfl, -, hnext⟩
    · exact hle.trans (Nat.le_add_left _ _)
    · rw [hnext]
      exact Nat.le_refl _
  plain h hstop := plain_next h hstop
  calm h hspawn := by
    obtain ⟨s, fd, c, -, -, rfl, -⟩ := spawn_eq_some h hspawn
    rfl

/-- No act but `accept` blocks. -/
theorem enabled (st : State) : cost.Enabled exec st := by
  intro t a rest _ hstop
  have hok : cost.ok a noInput := by
    intro fd m rest _ hwrite
    cases hwrite
  refine ⟨noInput, hok, ?_⟩
  cases a with
  | accept => cases hstop
  | _ =>
    simp only [exec]
    repeat' split
    all_goals rfl

/-- Neither `accept` nor `recv_message` is called with a lock. -/
theorem stop_outside (a : Act) (k : Lock) (ha : cost.stop a = true) : effect a (some k) = none := by
  cases a <;> first | rfl | cases ha

/-! ## Reachable states -/

/-- What is behind a rest leads to no more than a request and a cleanup. -/
theorem within_rest {rest : Code} (h : exec t a i sh = some out) (hstop : cost.stop a = true)
    (hp : cost.Within workMax leaveCost (.act a :: rest)) :
    cost.Within workMax leaveCost (out.next ++ rest) := by
  have hlast := (hp _ (List.suffix_refl _)).2 a rest rfl hstop
  have hrest : cost.Within workMax leaveCost rest := hp.suffix (List.suffix_cons _ _)
  have hmax : workMax = noticeCost + sendCost + 3 + leaveCost := rfl
  have hsend : frameMax + 4 = sendCost := rfl
  have hroute : ∀ s m, cost.effort ([.act (.route s m)] : Code) =
      1 + (noticeCost + sendCost + 2) := by simp [Cost.effort, cost, Act.cost]
  have htaken : ∀ fd c, cost.effort ([.lock .table, .act (.allot fd c)] : Code) =
      1 + (1 + (frameMax + 4)) := by simp [Cost.effort, cost, Act.cost]
  cases a with
  | accept =>
    simp only [exec] at h
    split at h
    · obtain rfl := goOn_inj h
      exact hp
    · split at h
      · obtain rfl := goOn_inj h
        refine Cost.Within.append (p := [.lock .table, .act (.allot _ _)]) hp ?_ ?_
        · simp [cost]
        · have hzero : cost.effort (.act .accept :: rest) = 0 := rfl
          rw [htaken, hzero]
          omega
      · cases h
  | recv s =>
    simp only [exec] at h
    split at h
    · next m _ _ =>
      split at h
      · obtain rfl := goOn_inj h
        refine hrest.append ?_ ?_
        · simp [cost]
        · rw [hroute]
          omega
      · obtain rfl := goOn_inj h
        refine Cost.Within.append (p := [.act (.route s m)]) hp ?_ ?_
        · simp [cost]
        · have hzero : cost.effort (.act (.recv s) :: rest) = 0 := rfl
          rw [hroute, hzero]
          omega
    · obtain rfl := goOn_inj h
      exact hrest
  | _ => cases hstop

/-- A thread that begins has only its cleanup behind its first rest. -/
theorem within_clientThread (s : Slot) : cost.Within workMax leaveCost (clientThread s) := by
  have hmax : workMax = noticeCost + sendCost + 3 + leaveCost := rfl
  have hleave : leaveCost = noticeCost + 5 := rfl
  have hcleanup : cost.effort ([.lock .table, .act (.cleanup s), .act (.closeSocket s)] : Code) =
      1 + (1 + (noticeCost + 2) + 1) := by simp [Cost.effort, cost, Act.cost]
  have hbehind : cost.Within workMax leaveCost
      ([.lock .table, .act (.cleanup s), .act (.closeSocket s)] : Code) := by
    refine Cost.Within.append (p := [_, _, _]) Cost.within_nil ?_ ?_
    · simp [cost]
    · rw [hcleanup]
      simp only [Cost.effort]
      omega
  refine Cost.within_cons (Nat.zero_le _) (fun a _ _ => ?_) hbehind
  rw [hcleanup]
  omega

/-- No thread of a reachable state has more to do before it rests than a request and its cleanup. -/
theorem within_of_reachable (h : Reachable step (init history) st) (t : Tid) :
    cost.Within workMax leaveCost (st.todo t) := by
  have hall : ∀ t, cost.Within workMax leaveCost (st.todo t) := by
    refine h.invariant (I := fun st => ∀ t, cost.Within workMax leaveCost (st.todo t)) ?_ ?_
    · intro t
      unfold init
      simp only
      split
      · exact Cost.within_cons (Nat.zero_le _) (fun _ _ _ => Nat.zero_le _) Cost.within_nil
      · exact Cost.within_nil
    · intro st l st' hst hs t
      refine Cost.Within.step sound_cost hst (fun t a i rest out => within_rest) ?_ hs
      intro t a i out u p hexec hspawn
      obtain ⟨s, fd, c, -, -, rfl, -⟩ := spawn_eq_some hexec hspawn
      exact within_clientThread s
  exact hall t

/-- Work accepts no connection. -/
theorem accepted_of_works {l : Tid × Input} (hw : cost.Works st l) (hs : step st l = some st') :
    st'.shared.accepted = st.shared.accepted := by
  rcases step_cases hs with ⟨k, rest, -, -, rfl⟩ | ⟨k, rest, -, rfl⟩ |
      ⟨a, rest, out, htodo, hexec, rfl⟩
  · rfl
  · rfl
  · apply (change_of_exec hexec).accepted
    rintro rfl
    cases (hw .accept rest htodo).1

/-- Only the crew has anything to do. -/
theorem todo_of_not_mem_crew (h : Reachable step (init history) st)
    (ht : t ∉ crew st.shared.accepted) : st.todo t = [] := by
  obtain ⟨g, k, hat⟩ := h.invariant (I := fun st => ∃ g k, At st g k) ⟨_, _, at_init history⟩
    fun st l st' hat hs =>
      let ⟨_, _, hat⟩ := hat
      let ⟨g', k', _, hat'⟩ := hat.step hs
      ⟨g', k', hat'⟩
  cases t with
  | main => exact absurd (Finset.mem_insert_self ..) ht
  | client s c =>
    have hc : st.shared.accepted ≤ c := by
      by_contra hlt
      apply ht
      simp only [crew, Finset.mem_insert, Finset.mem_image, Finset.mem_product, Finset.mem_univ,
        Finset.mem_range, true_and]
      exact Or.inr ⟨(s, c), Nat.lt_of_not_le hlt, rfl⟩
    exact (hat.todo_eq_nil_iff s c).mpr (hat.gone_of_le s hc)

/-- A crew is no larger than the accept loop and a thread for every slot and connection. -/
theorem card_crew_le (n : Nat) : (crew n).card ≤ 1 + maxClients * n := by
  have himage := Finset.card_image_le (s := (Finset.univ : Finset Slot) ×ˢ Finset.range n)
    (f := fun x => Tid.client x.1 x.2)
  rw [Finset.card_product, Finset.card_range, Finset.card_univ, Fintype.card_fin] at himage
  have hinsert := Finset.card_insert_le Tid.main
    ((Finset.univ ×ˢ Finset.range n).image fun x : Slot × Nat => Tid.client x.1 x.2)
  unfold crew
  omega

/-- What all threads together have to do. -/
theorem total_le (h : Reachable step (init history) st) :
    cost.total (crew st.shared.accepted) st ≤ (1 + maxClients * st.shared.accepted) * workMax := by
  have hall : cost.total (crew st.shared.accepted) st ≤
      (crew st.shared.accepted).card * workMax :=
    Finset.sum_le_card_nsmul _ _ _ fun t _ =>
      (within_of_reachable h t _ (List.suffix_refl _)).1
  exact hall.trans (Nat.mul_le_mul_right _ (card_crew_le _))

/-- A thread is over, or waits in `accept` or in `recv_message`. -/
def Rests (p : Code) : Prop :=
  p = [] ∨ (∃ rest, p = .act .accept :: rest) ∨ ∃ s rest, p = .act (.recv s) :: rest

theorem rests_of_effort {p : Code} (h : cost.effort p = 0) : Rests p := by
  rcases Cost.effort_eq_zero h with rfl | ⟨a, rest, rfl, ha⟩
  · exact Or.inl rfl
  · cases a with
    | accept => exact Or.inr (Or.inl ⟨rest, rfl⟩)
    | recv s => exact Or.inr (Or.inr ⟨s, rest, rfl⟩)
    | _ => cases ha

/-- A thread that rests has nothing taken. -/
theorem free_of_rests (hd : Disciplined effect st) (h : Rests (st.todo t)) (k : Lock) :
    st.owner k ≠ some t := by
  intro ho
  obtain hnil | ⟨rest, htodo⟩ | ⟨s, rest, htodo⟩ := h
  · exact hd.free_of_nil hnil k ho
  · exact hd.effect_of_act htodo ho rfl
  · exact hd.effect_of_act htodo ho rfl

/-- From every state the server can be in, and whatever is read and written: a thread rests after
a bounded number of its own steps, all threads together make no more than a bounded number of steps
without a new connection or request, some thread can make one as long as one does not rest, and so
the server can come to rest, with every lock free. -/
theorem work_ends (h : Reachable step (init history) st) :
    (∀ t ls st', Meets step (fun st l => l.1 = t → cost.Works st l) st ls →
      run step st ls = some st' → (ls.filter fun l => l.1 = t).length ≤ workMax) ∧
    (∀ ls st', Meets step cost.Works st ls → run step st ls = some st' →
      ls.length ≤ (1 + maxClients * st.shared.accepted) * workMax) ∧
    (∀ t, ¬ Rests (st.todo t) → ∃ l, cost.Works st l ∧ (step st l).isSome) ∧
    ∃ ls st', Meets step cost.Works st ls ∧ run step st ls = some st' ∧
      (∀ t, Rests (st'.todo t)) ∧ ∀ k, st'.owner k = none := by
  have hkeep : ∀ s l s', Reachable step (init history) s ∧
      s.shared.accepted = st.shared.accepted → cost.Works s l → step s l = some s' →
      Reachable step (init history) s' ∧ s'.shared.accepted = st.shared.accepted :=
    fun s l s' hs hw hstep =>
      ⟨hs.1.snoc hstep, (accepted_of_works hw hstep).trans hs.2⟩
  have hcrew : ∀ s, Reachable step (init history) s ∧ s.shared.accepted = st.shared.accepted →
      ∀ t, t ∉ crew st.shared.accepted → s.todo t = [] := by
    rintro s ⟨hs, hacc⟩ t ht
    exact todo_of_not_mem_crew hs (by rwa [hacc])
  have hgo : ∀ s, Reachable step (init history) s ∧ s.shared.accepted = st.shared.accepted →
      ∀ t, cost.effort (s.todo t) ≠ 0 → ∃ l, cost.Works s l ∧ (step s l).isSome := by
    have : Nonempty Input := ⟨noInput⟩
    exact fun s hs t ht => Cost.exists_works (inOrder_of_reachable hs.1).disciplined (enabled s)
      (fun a k ha => stop_outside a k ha) ht
  refine ⟨fun t ls st' hw hrun => ?_, fun ls st' hw hrun => ?_, fun t ht => ?_, ?_⟩
  · have hmost := (within_of_reachable h t _ (List.suffix_refl _)).1
    have hle := Cost.steps_le sound_cost hw hrun
    omega
  · have hle := Cost.length_le sound_cost hkeep hcrew ⟨h, rfl⟩ hw hrun
    have hmost := total_le h
    omega
  · exact hgo st ⟨h, rfl⟩ t fun he => ht (rests_of_effort he)
  · obtain ⟨ls, st', hw, hrun, hst', hrest⟩ :=
      Cost.exists_rest sound_cost hkeep hcrew hgo ⟨h, rfl⟩
    have hall : ∀ t, Rests (st'.todo t) := fun t => rests_of_effort (hrest t)
    refine ⟨ls, st', hw, hrun, hall, fun k => ?_⟩
    rw [Option.eq_none_iff_forall_ne_some]
    exact fun t => free_of_rests (inOrder_of_reachable hst'.1).disciplined (hall t) k

/-- A login that is read and not yet routed is done with. -/
theorem work_ends_login : ∃ st, run step (init fun _ => none)
      (connect 4 ++ [(.client 0 0, reads (loginAs "a"))]) = some st ∧
    ¬ Rests (st.todo (.client 0 0)) ∧
    ∃ ls st', Meets step cost.Works st ls ∧ run step st ls = some st' ∧
      (∀ t, Rests (st'.todo t)) ∧ ls.length ≤ (1 + maxClients * 1) * workMax := by
  have hlogin : WellFormed (loginAs "a") := wellFormed_makeMessage ..
  have hrun : run step (init fun _ => none)
      (connect 4 ++ [(.client 0 0, reads (loginAs "a"))]) = some _ :=
    run_trans rfl (run_cons_iff.mpr ⟨_, step_recv hlogin (by simp [loginAs]) rfl rfl, rfl⟩)
  obtain ⟨-, hlength, -, ls, st', hw, hls, hrest, -⟩ := work_ends ⟨_, hrun⟩
  refine ⟨_, hrun, ?_, ls, st', hw, hls, hrest, hlength ls st' hw hls⟩
  rintro (hnil | ⟨rest, ht⟩ | ⟨s, rest, ht⟩)
  · cases hnil
  · cases ht
  · cases ht

end ChatSystem.Thread
