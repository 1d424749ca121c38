import ChatSystem.Core.Budget
import ChatSystem.Fork.Turns

/-!
# What the processes have ahead

What the parent, its children and the handler still have to do without new connections and requests
is bounded: each step of work lowers a measure of the state.

A turn of the select loop costs something although it may find nothing to do for a slot. It is
paid for by what made `select` return: a message that is read, or a slot that loses its child.
-/

namespace ChatSystem.Fork

open Bytes Channel Tasks Transition Budget

/-- What a turn of the select loop may cost behind `select`. -/
def turnCost : Nat := 43

/-- What a slot with a pid pays for when it loses it. -/
def slotCost : Nat := 2 * turnCost

/-- What a byte in a pipe pays for when it is read. -/
def Pipe.cost : Pipe → Nat
  | .toChild _ => 1
  | .fromChild _ => 200

/-- What an act and all it expands to may cost; what is written is paid for. -/
def Act.cost : Act → Nat
  | .watch slots _ => slots.length + 2
  | .check slots _ => 3 * slots.length + 13
  | .recv _ _ => 2
  | .findFreeSlot _ _ slots => slots.length + 9 + slotCost
  | .refuse _ _ => 2
  | .pipes _ _ _ => 8 + slotCost
  | .fork _ _ _ => 7 + slotCost
  | .storePid _ _ => 3 + slotCost
  | .closeEnds _ _ => 2
  | .route _ _ _ => 14 + 11 * frameMax
  | .checkName _ _ _ => 5 + frameMax
  | .validate _ _ _ => 4 + frameMax
  | .storeName _ _ => 3 + frameMax
  | .activate _ _ | .listUsers _ _ | .readHistory _ _ => 2 + frameMax
  | .notify _ _ slots | .relay _ _ slots => slots.length * (1 + frameMax) + 1
  | .findTarget _ _ => 4 + 2 * frameMax
  | .pipeSend _ _ | .reply _ _ => 1 + frameMax
  | .bridge _ => 2
  | .fromClient _ => 4 + 200 * frameMax
  | .farewell _ => 3 + 200 * frameMax
  | .forward _ _ => 1 + 200 * frameMax
  | _ => 1

/-- What a process has ahead. -/
def effort (p : Code) : Nat :=
  (p.map fun | .act a => a.cost | .lock _ | .unlock _ => 0).sum

/-- What the bytes in the pipes, the slots with a pid and the processes pay for. -/
noncomputable def Shared.load (sh : Shared) : Nat :=
  total (fun p => Pipe.cost p * (sh.content p).length) +
    total (fun s => if (sh.clients s).pid = 0 then 0 else slotCost) +
    total fun p => if (sh.proc p).isSome then 1 else 0

/-- The act comes to what the turn is for: a reported slot with a pid. -/
def Act.promises (a : Act) (sh : Shared) : Prop :=
  match a with
  | .check slots rfds => ∃ s ∈ slots, (sh.clients s).pid ≠ 0 ∧ (sh.clients s).fromChild.1 ∈ rfds
  | .recv s _ | .drop s => (sh.clients s).pid ≠ 0
  | _ => False

/-- The act watches a pipe that is not of a slot with a pid. -/
def Act.stale (a : Act) (sh : Shared) : Prop :=
  match a with
  | .watch _ rfds | .select rfds =>
    ∃ fd ∈ rfds, ∀ s, (sh.clients s).pid ≠ 0 → (sh.clients s).fromChild.1 ≠ fd
  | _ => False

/-- What the turn is for is still ahead. -/
def Promised (sh : Shared) (p : Code) : Prop := ∃ a, .act a ∈ p ∧ a.promises sh

/-- A pipe is watched for nothing. -/
def Stale (sh : Shared) (p : Code) : Prop := ∃ a, .act a ∈ p ∧ a.stale sh

open Classical in
/-- What the parent's next turns cost that is not paid for by what its turn is for. -/
noncomputable def debt (sh : Shared) (p : Code) : Nat :=
  (if Promised sh p then 0 else turnCost) + if Stale sh p then turnCost else 0

/-- What all processes together still have to do. -/
noncomputable def workload (st : State) : Nat :=
  st.shared.load + total (fun t => effort (st.todo t)) + debt st.shared (st.todo .parent)

/-- An act is work: it brings no new connection or request, and nobody looks at a pipe for
nothing. -/
def Act.works (a : Act) (i : Input) (sh : Shared) : Prop :=
  match a with
  | .select rfds => i.interrupted = false ∧ i.waiting = false ∧ ∃ fd ∈ rfds, sh.readable fd = true
  | .accept => i.fd = none
  | .bridge k => i.fromClient = false ∧ sh.toPipe k.conn ≠ []
  | _ => True

/-- A step is work. -/
def Works (st : State) (l : Tid × Input) : Prop :=
  ∀ a rest, st.todo l.1 = .act a :: rest → a.works l.2 st.shared

variable {t : Tid} {a : Act} {i : Input} {sh sh' : Shared} {out : Outcome Empty Tid Act Shared}
  {slots : List Slot} {rfds : List Nat} {s : Slot} {st st' : State} {l : Tid × Input}
  {history : History} {rest p : Code} {g c g' c' : Nat}

@[simp] theorem effort_nil : effort [] = 0 := rfl

@[simp] theorem effort_act (a : Act) (p : Code) : effort (.act a :: p) = a.cost + effort p := rfl

@[simp] theorem effort_append (p q : Code) : effort (p ++ q) = effort p + effort q := by
  simp [effort]

/-! ## What the changes cost -/

/-- Only finitely much is in the pipes and in the process table. -/
structure Counted (sh : Shared) : Prop where
  content : (fun p => Pipe.cost p * (sh.content p).length).support.Finite
  proc : (fun p => if (sh.proc p).isSome then 1 else 0).support.Finite

/-- A change gives back `g` and costs `c`. -/
structure Costs (sh sh' : Shared) (g c : Nat) : Prop where
  finite : Counted sh → Counted sh'
  le : Counted sh → sh'.load + g ≤ sh.load + c

theorem Costs.trans {sh'' : Shared} (h : Costs sh sh' g c) (h' : Costs sh' sh'' g' c') :
    Costs sh sh'' (g + g') (c + c') := by
  refine ⟨fun hf => h'.finite (h.finite hf), fun hf => ?_⟩
  have h₁ := h.le hf
  have h₂ := h'.le (h.finite hf)
  omega

theorem Costs.weaken (h : Costs sh sh' g c) (hle : c ≤ c') : Costs sh sh' g c' :=
  ⟨h.finite, fun hf => (h.le hf).trans (Nat.add_le_add_left hle _)⟩

theorem content_congr (hto : sh'.toPipe = sh.toPipe) (hfrom : sh'.fromPipe = sh.fromPipe) :
    sh'.content = sh.content := by
  ext1 p
  cases p with
  | toChild d => exact congrFun hto d
  | fromChild d => exact congrFun hfrom d

/-- Nothing that is counted changes. -/
theorem costs_same (hto : sh'.toPipe = sh.toPipe) (hfrom : sh'.fromPipe = sh.fromPipe)
    (hproc : sh'.proc = sh.proc) (hpid : ∀ s, (sh'.clients s).pid = (sh.clients s).pid) :
    Costs sh sh' 0 0 := by
  have hcontent := content_congr hto hfrom
  have hload : sh'.load = sh.load := by
    simp only [Shared.load, hcontent, hproc, hpid]
  refine ⟨fun hf => ⟨?_, ?_⟩, fun _ => by rw [hload]⟩
  · rw [hcontent]
    exact hf.content
  · rw [hproc]
    exact hf.proc

/-- One pipe changes. -/
theorem costs_content {q : Pipe} (hq : q.cost * (sh'.content q).length + g ≤
    q.cost * (sh.content q).length + c) (hother : ∀ p, p ≠ q → sh'.content p = sh.content p)
    (hproc : sh'.proc = sh.proc) (hpid : ∀ s, (sh'.clients s).pid = (sh.clients s).pid) :
    Costs sh sh' g c := by
  have hle : ∀ p, p ≠ q → Pipe.cost p * (sh'.content p).length ≤
      Pipe.cost p * (sh.content p).length := fun p hp => by rw [hother p hp]
  refine ⟨fun hf => ⟨?_, ?_⟩, fun hf => ?_⟩
  · exact finite_support (s := {q}) hf.content fun p hp => hle p (by simpa using hp)
  · rw [hproc]
    exact hf.proc
  · have htotal := total_add_le_of_ne hf.content hle
    simp only [Shared.load, hproc, hpid]
    omega

theorem costs_setEntry (sh : Shared) (s : Slot) (e : Entry) : Costs sh (sh.setEntry s e) 0 0 :=
  costs_same rfl rfl rfl fun j => pid_setEntry sh s e j

theorem costs_note (sh : Shared) (e : Event) : Costs sh (sh.note e) 0 0 :=
  costs_same rfl rfl rfl fun _ => rfl

/-- `pipe_send` writes no more than one frame. -/
theorem costs_pipeSend (sh : Shared) (s : Slot) (m : Message) :
    Costs sh (sh.pipeSend s m) 0 frameMax := by
  have hlen := length_packMessage_le_frameMax m
  unfold Shared.pipeSend
  split
  · next c hfd =>
    unfold Shared.feed
    split
    · exact (costs_note sh _).weaken (Nat.zero_le _)
    · refine costs_content (q := .toChild c) ?_ (fun p hp => ?_) rfl fun _ => rfl
      · simp [Shared.content, Shared.note, Pipe.cost, -length_packMessage]
        omega
      · cases p with
        | fromChild d => rfl
        | toChild d => exact Function.update_of_ne (fun he => hp (by rw [he])) ..
  · exact (costs_same rfl rfl rfl fun _ => rfl).weaken (Nat.zero_le _)

/-- A child writes no more than one frame. -/
theorem costs_forward (sh : Shared) (d : Nat) (m : Message) :
    Costs sh (sh.forward d m) 0 (200 * frameMax) := by
  have hlen := length_packMessage_le_frameMax m
  refine costs_content (q := .fromChild d) ?_ (fun p hp => ?_) rfl fun _ => rfl
  · simp [Shared.content, Shared.forward, Shared.note, Pipe.cost, -length_packMessage]
    omega
  · cases p with
    | toChild d => rfl
    | fromChild d' => exact Function.update_of_ne (fun he => hp (by rw [he])) ..

theorem costs_readFrom (sh : Shared) (d : Nat) {bytes : List UInt8}
    (hle : bytes.length + g ≤ (sh.fromPipe d).length) :
    Costs sh (sh.readFrom d bytes) (200 * g) 0 := by
  obtain ⟨hself, hother⟩ := content_readFrom sh d bytes
  refine costs_content (q := .fromChild d) ?_ hother rfl fun _ => rfl
  rw [hself]
  change 200 * _ + _ ≤ 200 * (sh.fromPipe d).length + 0
  omega

theorem costs_readTo (sh : Shared) (d : Nat) {bytes : List UInt8}
    (hle : bytes.length + g ≤ (sh.toPipe d).length) : Costs sh (sh.readTo d bytes) g 0 := by
  obtain ⟨hself, hother⟩ := content_readTo sh d bytes
  refine costs_content (q := .toChild d) ?_ hother rfl fun _ => rfl
  rw [hself]
  change 1 * _ + _ ≤ 1 * (sh.toPipe d).length + 0
  omega

/-- One slot changes. -/
theorem costs_slot {s : Slot} (hother : ∀ j, j ≠ s → (sh'.clients j).pid = (sh.clients j).pid)
    (hto : sh'.toPipe = sh.toPipe) (hfrom : sh'.fromPipe = sh.fromPipe)
    (hproc : sh'.proc = sh.proc) : Costs sh sh' (if (sh.clients s).pid = 0 then 0 else slotCost)
      (if (sh'.clients s).pid = 0 then 0 else slotCost) := by
  have hcontent := content_congr hto hfrom
  refine ⟨fun hf => ⟨?_, ?_⟩, fun hf => ?_⟩
  · rw [hcontent]
    exact hf.content
  · rw [hproc]
    exact hf.proc
  · have htotal := total_add_le_of_ne (a := s)
      (f := fun s => if (sh.clients s).pid = 0 then 0 else slotCost)
      (g := fun s => if (sh'.clients s).pid = 0 then 0 else slotCost) (Set.toFinite _)
      fun j hj => by rw [hother j hj]
    simp only [Shared.load, hproc, hcontent]
    omega

/-- One entry of the process table changes. -/
theorem costs_proc (pid : Nat) (hother : ∀ p, p ≠ pid → sh'.proc p = sh.proc p)
    (hto : sh'.toPipe = sh.toPipe) (hfrom : sh'.fromPipe = sh.fromPipe)
    (hpid : ∀ s, (sh'.clients s).pid = (sh.clients s).pid) :
    Costs sh sh' (if (sh.proc pid).isSome then 1 else 0)
      (if (sh'.proc pid).isSome then 1 else 0) := by
  have hcontent := content_congr hto hfrom
  have hle : ∀ p, p ≠ pid → (if (sh'.proc p).isSome then 1 else 0) ≤
      if (sh.proc p).isSome then 1 else 0 := fun p hp => by rw [hother p hp]
  refine ⟨fun hf => ⟨?_, ?_⟩, fun hf => ?_⟩
  · rw [hcontent]
    exact hf.content
  · exact finite_support (s := {pid}) hf.proc fun p hp => hle p (by simpa using hp)
  · have htotal := total_add_le_of_ne hf.proc hle
    simp only [Shared.load, hcontent, hpid]
    omega

theorem costs_storePid (sh : Shared) (s : Slot) (pid : Nat) :
    Costs sh (sh.storePid s pid) 0 slotCost := by
  have h : Costs sh (sh.storePid s pid) _ _ :=
    costs_slot (s := s) (fun j hj => congrArg Client.pid (clients_setClient_of_ne sh hj _)) rfl rfl
      rfl
  refine ⟨h.finite, fun hf => ?_⟩
  have hle := h.le hf
  split at hle <;> split at hle <;> omega

theorem costs_release (sh : Shared) (s : Slot) :
    Costs sh (sh.release s) (if (sh.clients s).pid = 0 then 0 else slotCost) 0 := by
  have h : Costs sh (sh.release s) _ _ :=
    costs_slot (s := s) (fun j hj => pid_release_of_ne sh hj) rfl rfl rfl
  rw [if_pos (pid_release sh s)] at h
  exact h

theorem costs_start (sh : Shared) (k : Child) : Costs sh (sh.start k) 0 1 := by
  have h : Costs sh (sh.start k) _ _ :=
    costs_proc k.pid (fun p hp => Function.update_of_ne hp ..) rfl rfl fun _ => rfl
  refine ⟨h.finite, fun hf => ?_⟩
  have hle := h.le hf
  split at hle <;> split at hle <;> omega

theorem costs_exit {k : Child} (hk : sh.proc k.pid = some (.running k.conn)) :
    Costs sh (sh.exit k) 0 0 := by
  have h : Costs sh (sh.exit k) _ _ :=
    costs_proc k.pid (fun p hp => Function.update_of_ne hp ..) rfl rfl fun _ => rfl
  refine ⟨h.finite, fun hf => ?_⟩
  have hle := h.le hf
  have hself : (sh.exit k).proc k.pid = some (.zombie k.conn) := Function.update_self ..
  rw [hk, hself] at hle
  exact Nat.le_of_add_le_add_right hle

/-- A child that is waited for, and the slot it may still have. -/
theorem costs_reap {pid c : Nat} (hN : Numbered sh) (hz : sh.proc pid = some (.zombie c)) :
    Costs sh (sh.reap pid) (1 + if sh.findPid pid = none then 0 else slotCost) 0 := by
  have hgone : ∀ a : Shared, a.proc = sh.proc →
      Costs a { a with proc := Function.update a.proc pid none } 1 0 := by
    intro a ha
    have h : Costs a { a with proc := Function.update a.proc pid none } _ _ :=
      costs_proc pid (fun p hp => Function.update_of_ne hp ..) rfl rfl fun _ => rfl
    refine ⟨h.finite, fun hf => ?_⟩
    have hle := h.le hf
    have hbefore : (a.proc pid).isSome = true := by rw [ha, hz]; rfl
    have hafter : ({ a with proc := Function.update a.proc pid none } : Shared).proc pid = none :=
      Function.update_self ..
    rw [if_pos hbefore, hafter] at hle
    exact hle
  rcases reap_cases sh pid with ⟨hfind, he⟩ | ⟨s, hfind, hs, he⟩
  · rw [he, hfind, if_pos rfl]
    exact hgone sh rfl
  · have hpid : (sh.clients s).pid ≠ 0 := by
      rw [hs]
      rintro rfl
      cases hN.symm.trans hz
    have h := (costs_release sh s).trans (hgone (sh.release s) rfl)
    rw [if_neg hpid] at h
    rw [he, hfind, if_neg (by simp)]
    exact h

/-! ## What the acts cost -/

/-- No slot loses its child, and no message reaches the parent. -/
def Calm (a : Act) (sh sh' : Shared) : Prop :=
  (∀ s, (sh.clients s).pid ≠ 0 → (sh'.clients s).pid ≠ 0) ∧
    ∀ s fd, a = .recv s fd → ∀ c, sh.readEnd fd = some c → sh.fromPipe c = []

/-- What a started process has ahead. -/
def startEffort : Option (Tid × Code) → Nat
  | none => 0
  | some (_, p) => effort p

theorem effort_code (acts : List Act) : effort (code acts) = (acts.map Act.cost).sum := by
  simp [effort, code, Function.comp_def]

theorem cost_route (sh : Shared) (s : Slot) (m : Message) :
    ((sh.route s m).map Act.cost).sum ≤ 13 + 11 * frameMax := by
  have hten : maxClients * (1 + frameMax) = 10 * (1 + frameMax) := rfl
  unfold Shared.route
  split
  · unfold Shared.login
    split <;> simp [Act.cost] <;> omega
  · simp [Shared.logout, Act.cost]
    omega
  · unfold Shared.broadcast
    split <;> simp [Act.cost] <;> omega
  · unfold Shared.priv
    split <;> simp [Act.cost] <;> omega
  all_goals
    simp [Act.cost]
    try omega

/-- An act pays for what it expands to, and for two turns if it is what the turn is for. -/
def Paid (a : Act) (sh : Shared) (out : Outcome Empty Tid Act Shared) : Prop :=
  ∃ g c, Costs sh out.shared g c ∧
    effort out.next + startEffort out.spawn + c + 1 ≤ a.cost + g ∧
    (Calm a sh out.shared ∨
      effort out.next + startEffort out.spawn + c + 1 + 2 * turnCost ≤ a.cost + g)

theorem paid_goOn {next : List Act} (hcosts : Costs sh sh' 0 c)
    (hpid : ∀ s, (sh.clients s).pid ≠ 0 → (sh'.clients s).pid ≠ 0)
    (ha : ∀ s fd, a ≠ .recv s fd) (hle : (next.map Act.cost).sum + c + 1 ≤ a.cost) :
    Paid a sh { shared := sh', next := code next, spawn := none } := by
  refine ⟨0, c, hcosts, ?_, Or.inl ⟨hpid, fun s fd he => absurd he (ha s fd)⟩⟩
  rw [effort_code]
  exact hle

theorem paid_same {next : List Act} (ha : ∀ s fd, a ≠ .recv s fd)
    (hle : (next.map Act.cost).sum + 1 ≤ a.cost) :
    Paid a sh { shared := sh, next := code next, spawn := none } :=
  paid_goOn (costs_same rfl rfl rfl fun _ => rfl) (fun _ h => h) ha hle

theorem paid_setEntry {next : List Act} {s : Slot} {e : Entry} (ha : ∀ s fd, a ≠ .recv s fd)
    (hle : (next.map Act.cost).sum + 1 ≤ a.cost) :
    Paid a sh { shared := sh.setEntry s e, next := code next, spawn := none } :=
  paid_goOn (costs_setEntry sh s e) (fun j hj => (pid_setEntry sh s e j).symm ▸ hj) ha hle

theorem pid_pipeSend (sh : Shared) (s : Slot) (m : Message) (j : Slot) :
    ((sh.pipeSend s m).clients j).pid = (sh.clients j).pid := by
  rw [(Quiet.pipeSend sh s m).clients]

theorem paid_pipeSend {next : List Act} {s : Slot} {m : Message} (ha : ∀ s fd, a ≠ .recv s fd)
    (hle : (next.map Act.cost).sum + frameMax + 1 ≤ a.cost) :
    Paid a sh { shared := sh.pipeSend s m, next := code next, spawn := none } :=
  paid_goOn (costs_pipeSend sh s m) (fun j hj => (pid_pipeSend sh s m j).symm ▸ hj) ha hle

theorem paid_pipes {s : Slot} {fd d : Nat} (h : exec t (.pipes s fd d) i sh = some out) :
    Paid (.pipes s fd d) sh out := by
  have hslot : slotCost = 86 := rfl
  simp only [exec] at h
  split at h
  · obtain rfl := goOn_inj h
    exact paid_same (by simp) (by simp [Act.cost] <;> omega)
  · next p _ =>
    split at h
    · split at h
      · obtain rfl := goOn_inj h
        exact paid_goOn (costs_same rfl rfl rfl fun j => pid_openTo sh s d p j)
          (fun j hj => (pid_openTo sh s d p j).symm ▸ hj) (by simp)
          (by simp [Act.cost] <;> omega)
      · next q _ =>
        split at h
        · obtain rfl := goOn_inj h
          have hpid := fun j => (pid_openFrom (sh.openTo s d p) s d q j).trans
            (pid_openTo sh s d p j)
          exact paid_goOn (costs_same rfl rfl rfl hpid) (fun j hj => (hpid j).symm ▸ hj) (by simp)
            (by simp [Act.cost] <;> omega)
        · cases h
    · cases h

/-- A message that reaches the parent pays for what it leads to, and for two turns. -/
theorem paid_recv {s : Slot} {fd : Nat} (h : exec t (.recv s fd) i sh = some out)
    (hF : ∀ p, ∃ ms, sh.content p = frames ms) : Paid (.recv s fd) sh out := by
  simp only [exec] at h
  split at h
  · cases h
  · next d hd =>
    obtain ⟨ms, hms⟩ := hF (.fromChild d)
    have hms : sh.fromPipe d = (ms.map packMessage).flatten := hms
    split at h
    · cases h
    · next m src hr =>
      obtain rfl := goOn_inj h
      rw [hms] at hr
      rcases pipeRecv_frames hr with ⟨-, -, hnone, -⟩ | ⟨m', ms', rfl, -, hsrc⟩
      · cases hnone
      · have hlen : src.inbound.length + headerSize ≤ (sh.fromPipe d).length := by
          rw [hms, hsrc, List.map_cons, List.flatten_cons, List.length_append, length_packMessage]
          omega
        have hnext : effort (code [.route s d m]) = 14 + 11 * frameMax := by
          simp [effort_code, Act.cost]
        have hpay : 14 + 11 * frameMax + 1 + 2 * turnCost ≤ 2 + 200 * headerSize := by decide
        have hcost : (Act.recv s fd).cost = 2 := rfl
        refine ⟨200 * headerSize, 0, costs_readFrom sh d hlen, ?_, Or.inr ?_⟩ <;>
          simp only [startEffort, hnext, hcost] <;> omega
    · next src hr =>
      obtain rfl := goOn_inj h
      rw [hms] at hr
      rcases pipeRecv_frames hr with ⟨rfl, -, -, hsrc⟩ | ⟨m', ms', -, hsome, -⟩
      · refine ⟨200 * 0, 0, costs_readFrom sh d (by simp [hsrc]), ?_, Or.inl ⟨fun _ h => h, ?_⟩⟩
        · simp [startEffort, effort_code, Act.cost]
        · intro s' fd' he d' hd'
          obtain ⟨-, rfl⟩ := Act.recv.inj he
          obtain rfl := Option.some.inj (hd.symm.trans hd')
          exact hms
      · cases hsome

/-- So does a slot that loses its child. -/
theorem paid_drop {s : Slot} (h : exec t (.drop s) i sh = some out) : Paid (.drop s) sh out := by
  have hturn : turnCost = 43 := rfl
  have hslot : slotCost = 86 := rfl
  simp only [exec] at h
  obtain rfl := goOn_inj h
  by_cases hs : (sh.clients s).pid = 0
  · refine ⟨_, 0, costs_release sh s, ?_, Or.inl ⟨fun j hj => ?_, by simp⟩⟩
    · simp [startEffort, effort_code, Act.cost]
    · have hne : j ≠ s := by
        rintro rfl
        exact hj hs
      rwa [pid_release_of_ne sh hne]
  · refine ⟨_, 0, costs_release sh s, ?_, Or.inr ?_⟩ <;>
      simp [startEffort, effort_code, Act.cost, hs]; omega

theorem paid_reap (h : exec t .reap i sh = some out) (hN : Numbered sh) : Paid .reap sh out := by
  have hturn : turnCost = 43 := rfl
  have hslot : slotCost = 86 := rfl
  simp only [exec] at h
  split at h
  · cases h
  · next pid _ =>
    split at h
    · next d hz =>
      obtain rfl := goOn_inj h
      by_cases hfind : sh.findPid pid = none
      · refine ⟨_, 0, costs_reap hN hz, ?_, Or.inl ⟨fun j hj => ?_, by simp⟩⟩
        · simp [startEffort, effort_code, Act.cost, hfind]
        · rcases pid_reap sh pid j with he | ⟨-, -, hsome⟩
          · exact he ▸ hj
          · cases hfind.symm.trans hsome
      · refine ⟨_, 0, costs_reap hN hz, ?_, Or.inr ?_⟩ <;>
          simp [startEffort, effort_code, Act.cost, hfind] <;> omega
    · cases h

theorem paid_fromParent {k : Child} (h : exec t (.fromParent k) i sh = some out)
    (hF : ∀ p, ∃ ms, sh.content p = frames ms) : Paid (.fromParent k) sh out := by
  simp only [exec] at h
  obtain ⟨ms, hms⟩ := hF (.toChild k.conn)
  have hms : sh.toPipe k.conn = (ms.map packMessage).flatten := hms
  split at h
  · cases h
  · next src hr =>
    rw [hms] at hr
    rcases pipeRecv_frames hr with ⟨-, hclosed, -⟩ | ⟨m', ms', -, hsome, -⟩
    · cases hclosed
    · cases hsome
  · next m src hr =>
    obtain rfl := goOn_inj h
    rw [hms] at hr
    rcases pipeRecv_frames hr with ⟨-, hclosed, -⟩ | ⟨m', ms', rfl, -, hsrc⟩
    · cases hclosed
    · have hlen : src.inbound.length + headerSize ≤ (sh.toPipe k.conn).length := by
        rw [hms, hsrc, List.map_cons, List.flatten_cons, List.length_append, length_packMessage]
        omega
      refine ⟨_, _, (costs_readTo sh k.conn hlen).trans (costs_note _ _), ?_,
        Or.inl ⟨fun _ h => h, by simp⟩⟩
      simp [startEffort, effort_code, Act.cost, headerSize]

theorem paid (h : exec t a i sh = some out) (hw : a.works i sh) (hset : Setup a sh)
    (hN : Numbered sh) (hF : ∀ p, ∃ ms, sh.content p = frames ms) (ha : ∀ rfds, a ≠ .select rfds) :
    Paid a sh out := by
  have hmax : maxClients = 10 := rfl
  have hframe : frameMax = 1100 := rfl
  have hturn : turnCost = 43 := rfl
  have hslot : slotCost = 86 := rfl
  cases a
  case select rfds => exact absurd rfl (ha rfds)
  case pipes s fd d => exact paid_pipes h
  case recv s fd => exact paid_recv h hF
  case drop s => exact paid_drop h
  case fromParent k => exact paid_fromParent h hF
  case reap => exact paid_reap h hN
  all_goals simp only [exec] at h
  case watch slots rfds | check slots rfds | findFreeSlot fd d slots =>
    split at h
    · obtain rfl := goOn_inj h
      exact paid_same (by simp) (by simp [Act.cost, mainLoop] <;> omega)
    · split at h <;> obtain rfl := goOn_inj h <;>
        exact paid_same (by simp) (by simp [Act.cost] <;> omega)
  case accept =>
    have hw : i.fd = none := hw
    rw [hw] at h
    obtain rfl := goOn_inj h
    exact paid_same (by simp) (by simp [Act.cost])
  case refuse fd d =>
    obtain rfl := goOn_inj h
    exact paid_goOn (costs_note sh _) (fun _ h => h) (by simp) (by simp [Act.cost])
  case fork s fd d =>
    split at h
    · obtain rfl := goOn_inj h
      exact paid_same (by simp) (by simp [Act.cost] <;> omega)
    · split at h
      · obtain rfl := Option.some.inj h
        refine ⟨0, 1, costs_start sh _, ?_, Or.inl ⟨fun _ h => h, by simp⟩⟩
        simp [startEffort, effort_code, Act.cost]
        omega
      · cases h
  case storePid k fd =>
    obtain rfl := goOn_inj h
    refine paid_goOn (costs_storePid sh k.slot k.pid) (fun j hj => ?_) (by simp)
      (by simp [Act.cost] <;> omega)
    have hne : j ≠ k.slot := by
      rintro rfl
      exact hj hset.2.1.2
    rwa [Shared.storePid, clients_setClient_of_ne sh hne]
  case closeEnds k fd | closeFd fd =>
    obtain rfl := goOn_inj h
    exact paid_goOn (costs_same rfl rfl rfl fun _ => rfl) (fun _ h => h) (by simp)
      (by simp [Act.cost])
  case route s d m =>
    obtain rfl := goOn_inj h
    have hroute := cost_route sh s m
    refine paid_goOn (costs_note sh _) (fun _ h => h) (by simp) ?_
    change _ ≤ 14 + 11 * frameMax
    omega
  case checkName | validate | findTarget =>
    split at h <;> obtain rfl := goOn_inj h <;>
      exact paid_same (by simp) (by simp [Act.cost] <;> omega)
  case storeName | activate | clear | setStatus =>
    obtain rfl := goOn_inj h
    exact paid_setEntry (by simp) (by simp [Act.cost] <;> omega)
  case notify skip note slots | relay skip m slots =>
    split at h
    · obtain rfl := goOn_inj h
      exact paid_same (by simp) (by simp [Act.cost])
    · next j slots =>
      split at h <;> obtain rfl := goOn_inj h
      · refine paid_pipeSend (by simp) ?_
        simp only [Act.cost, List.map_cons, List.map_nil, List.sum_cons, List.sum_nil,
          List.length_cons, Nat.succ_mul]
        omega
      · refine paid_same (by simp) ?_
        simp only [Act.cost, List.map_cons, List.map_nil, List.sum_cons, List.sum_nil,
          List.length_cons, Nat.succ_mul]
        omega
  case saveHistory m receiver =>
    obtain rfl := goOn_inj h
    exact paid_goOn (costs_same rfl rfl rfl fun _ => rfl) (fun _ h => h) (by simp)
      (by simp [Act.cost])
  case pipeSend s m | reply s make =>
    obtain rfl := goOn_inj h
    exact paid_pipeSend (by simp) (by simp [Act.cost] <;> omega)
  case listUsers s m | readHistory s m =>
    obtain rfl := goOn_inj h
    exact paid_same (by simp) (by simp [Act.cost] <;> omega)
  case bridge k =>
    have hw : i.fromClient = false ∧ _ := hw
    rw [hw.1] at h
    obtain rfl := goOn_inj h
    exact paid_same (by simp) (by simp [Act.cost])
  case fromClient k =>
    split at h <;> obtain rfl := goOn_inj h <;>
      exact paid_same (by simp) (by simp [Act.cost] <;> omega)
  case farewell k =>
    obtain rfl := goOn_inj h
    exact paid_same (by simp) (by simp [Act.cost] <;> omega)
  case forward k m =>
    split at h <;> obtain rfl := goOn_inj h
    · exact paid_same (by simp) (by simp [Act.cost])
    · exact paid_goOn (costs_forward sh k.conn m) (fun _ h => h) (by simp)
        (by simp [Act.cost] <;> omega)
  case exit k =>
    split at h
    · next hk =>
      obtain rfl := goOn_inj h
      exact paid_goOn (costs_exit hk) (fun _ h => h) (by simp) (by simp [Act.cost])
    · cases h

/-! ## What a turn is for -/

theorem debt_le {p' : Code} (hP : Promised sh p → Promised sh' p')
    (hS : Stale sh' p' → Stale sh p) : debt sh' p' ≤ debt sh p := by
  unfold debt
  refine Nat.add_le_add ?_ ?_
  · by_cases hno : Promised sh' p'
    · rw [if_pos hno]
      exact Nat.zero_le _
    · rw [if_neg hno, if_neg fun h => hno (hP h)]
  · by_cases hst : Stale sh' p'
    · rw [if_pos hst, if_pos (hS hst)]
    · rw [if_neg hst]
      exact Nat.zero_le _

theorem debt_le_two (sh : Shared) (p : Code) : debt sh p ≤ 2 * turnCost := by
  unfold debt
  split <;> split <;> omega

/-- The slots with a pid keep it, and what they read from. -/
def Holding (sh sh' : Shared) : Prop :=
  ∀ s, (sh.clients s).pid ≠ 0 →
    (sh'.clients s).pid ≠ 0 ∧ (sh'.clients s).fromChild = (sh.clients s).fromChild

theorem Calm.holding (h : Calm a sh sh') (hc : Change sh a sh') (hset : Setup a sh) :
    Holding sh sh' := by
  intro s hs
  have hs' := h.1 s hs
  exact ⟨hs', (used_of_change hc hset hs').2.1⟩

theorem Holding.promises (h : Holding sh sh') (ha : a.promises sh) : a.promises sh' := by
  cases a with
  | check slots rfds =>
    obtain ⟨s, hs, hpid, hfd⟩ := ha
    obtain ⟨hpid', hfrom⟩ := h s hpid
    exact ⟨s, hs, hpid', hfrom ▸ hfd⟩
  | recv s fd => exact (h s ha).1
  | drop s => exact (h s ha).1
  | _ => exact ha

theorem Holding.stale (h : Holding sh sh') (ha : a.stale sh') : a.stale sh := by
  cases a with
  | watch slots rfds =>
    obtain ⟨fd, hfd, hno⟩ := ha
    refine ⟨fd, hfd, fun s hs => ?_⟩
    rw [← (h s hs).2]
    exact hno s (h s hs).1
  | select rfds =>
    obtain ⟨fd, hfd, hno⟩ := ha
    refine ⟨fd, hfd, fun s hs => ?_⟩
    rw [← (h s hs).2]
    exact hno s (h s hs).1
  | _ => exact ha

theorem Holding.debt_le (h : Holding sh sh') (p : Code) : debt sh' p ≤ debt sh p :=
  Fork.debt_le (fun ⟨a, ha, hpr⟩ => ⟨a, ha, h.promises hpr⟩)
    fun ⟨a, ha, hst⟩ => ⟨a, ha, h.stale hst⟩

/-- A promise is kept until a message is read, or a slot loses its child. -/
theorem promised_next (h : exec t a i sh = some out) (hcalm : Calm a sh out.shared)
    (ha : a.promises sh) :
    Promised out.shared out.next := by
  cases a with
  | check slots rfds =>
    simp only [exec] at h
    obtain ⟨s, hs, hpid, hfd⟩ := ha
    split at h
    · cases hs
    · next j slots =>
      split at h
      · next hj =>
        obtain rfl := goOn_inj h
        exact ⟨_, List.mem_cons_self, hj.1.ne'⟩
      · next hj =>
        obtain rfl := goOn_inj h
        refine ⟨_, List.mem_cons_self, s, ?_, hpid, hfd⟩
        refine (List.mem_cons.mp hs).resolve_left ?_
        rintro rfl
        exact hj ⟨Nat.pos_of_ne_zero hpid, hfd⟩
  | recv s fd =>
    simp only [exec] at h
    split at h
    · cases h
    · next d hd =>
      have hempty := hcalm.2 s fd rfl d hd
      split at h
      · cases h
      · next m src hr =>
        rw [hempty] at hr
        obtain ⟨-, hnone, -⟩ := pipeRecv_nil hr
        cases hnone
      · obtain rfl := goOn_inj h
        exact ⟨_, List.mem_cons_self, ha⟩
  | drop s =>
    obtain rfl := goOn_inj h
    exact absurd (pid_release sh s) (hcalm.1 s ha)
  | _ => exact ha.elim

/-- The parent comes to watch nothing but the pipes of slots with a pid. -/
theorem stale_next {b : Act} (h : exec t a i sh = some out) (hown : a.owner = .parent)
    (ha : ∀ rfds, a ≠ .select rfds) (hb : .act b ∈ out.next) (hst : b.stale out.shared) :
    a.stale sh := by
  by_cases hturn : a.turns = true
  · cases a with
    | select rfds => exact absurd rfl (ha rfds)
    | watch slots rfds =>
      simp only [exec] at h
      split at h
      · obtain rfl := goOn_inj h
        rw [eq_of_mem_code hb] at hst
        exact hst
      · next s slots =>
        split at h
        · next hs =>
          obtain rfl := goOn_inj h
          rw [eq_of_mem_code hb] at hst
          obtain ⟨fd, hfd, hno⟩ := hst
          rcases List.mem_append.mp hfd with hfd | hfd
          · exact ⟨fd, hfd, hno⟩
          · exact absurd (List.mem_singleton.mp hfd).symm (hno s hs.ne')
        · obtain rfl := goOn_inj h
          rw [eq_of_mem_code hb] at hst
          exact hst
    | check slots rfds =>
      simp only [exec] at h
      split at h
      · obtain rfl := goOn_inj h
        rw [eq_of_mem_code hb] at hst
        obtain ⟨fd, hfd, -⟩ := hst
        cases hfd
      · split at h <;> obtain rfl := goOn_inj h
        · have hb := mem_code.mp hb
          simp only [List.mem_cons, List.not_mem_nil, or_false] at hb
          rcases hb with rfl | rfl <;> exact hst.elim
        · rw [eq_of_mem_code hb] at hst
          exact hst.elim
    | recv s fd =>
      simp only [exec] at h
      repeat' split at h
      all_goals cases h
      all_goals
        rw [eq_of_mem_code hb] at hst
        exact hst.elim
    | _ => cases hturn
  · obtain ⟨acts, hnext, hacts⟩ := turns_next h (by simpa using hturn) hown
    rw [hnext] at hb
    have hplain := hacts b (mem_code.mp hb)
    cases b with
    | watch | select => cases hplain
    | _ => exact hst.elim

/-- The parent owes no more behind an act that is not what the turn is for. -/
theorem debt_next (h : exec t a i sh = some out) (hcalm : Calm a sh out.shared)
    (hset : Setup a sh) (hown : a.owner = .parent) (ha : ∀ rfds, a ≠ .select rfds) (rest : Code) :
    debt out.shared (out.next ++ rest) ≤ debt sh (.act a :: rest) := by
  have hholding := hcalm.holding (change_of_exec h) hset
  refine debt_le ?_ ?_
  · rintro ⟨b, hb, hpr⟩
    rcases List.mem_cons.mp hb with hb | hb
    · obtain rfl := Stmt.act.inj hb
      obtain ⟨d, hd, hpr⟩ := promised_next h hcalm hpr
      exact ⟨d, List.mem_append_left _ hd, hpr⟩
    · exact ⟨b, List.mem_append_right _ hb, hholding.promises hpr⟩
  · rintro ⟨b, hb, hst⟩
    rcases List.mem_append.mp hb with hb | hb
    · exact ⟨a, List.mem_cons_self, stale_next h hown ha hb hst⟩
    · exact ⟨b, List.mem_cons_of_mem _ hb, hholding.stale hst⟩

/-- `select` returns for what the turn is for, or for a slot that has lost its child. -/
theorem debt_select {fd : Nat} (hfd : fd ∈ rfds) (hr : sh.readable fd = true) :
    effort (code [.check (List.finRange maxClients) (rfds.filter sh.readable)]) +
        debt sh (code [.check (List.finRange maxClients) (rfds.filter sh.readable)]) <
      effort (code [.select rfds]) + debt sh (code [.select rfds]) := by
  have hready : fd ∈ rfds.filter sh.readable := List.mem_filter.mpr ⟨hfd, hr⟩
  generalize rfds.filter sh.readable = ready at hready
  have hmax : maxClients = 10 := rfl
  have hturn : turnCost = 43 := rfl
  have hcost : effort (code [.check (List.finRange maxClients) ready]) = 43 := by
    simp [effort_code, Act.cost, hmax]
  have hcost' : effort (code [.select rfds]) = 1 := rfl
  have hfresh : ¬ Stale sh (code [.check (List.finRange maxClients) ready]) := by
    rintro ⟨b, hb, hst⟩
    rw [eq_of_mem_code hb] at hst
    exact hst
  have hnone : ¬ Promised sh (code [.select rfds]) := by
    rintro ⟨b, hb, hpr⟩
    rw [eq_of_mem_code hb] at hpr
    exact hpr
  rw [hcost, hcost', debt, debt, if_neg hfresh, if_neg hnone]
  by_cases hst : Stale sh (code [.select rfds])
  · rw [if_pos hst]
    split <;> omega
  · -- what is watched is of a slot with a pid, and the turn will come to it
    have hpromised : Promised sh (code [.check (List.finRange maxClients) ready]) := by
      by_contra hno
      refine hst ⟨_, List.mem_cons_self, fd, hfd, fun s hs he => hno ?_⟩
      exact ⟨_, List.mem_cons_self, s, List.mem_finRange s, hs, he ▸ hready⟩
    rw [if_pos hpromised, if_neg hst]
    omega

/-! ## The workload -/

/-- What all have ahead behind an act. -/
theorem total_perform (hfin : (fun u => effort (st.todo u)).support.Finite)
    (htodo : st.todo t = .act a :: rest) (out : Outcome Empty Tid Act Shared) :
    (fun u => effort ((st.perform t rest out).todo u)).support.Finite ∧
      total (fun u => effort ((st.perform t rest out).todo u)) + a.cost ≤
        total (fun u => effort (st.todo u)) + effort out.next + startEffort out.spawn := by
  have hother : ∀ u, u ≠ t → (if u = t then effort (out.next ++ rest) else effort (st.todo u)) ≤
      effort (st.todo u) := fun u hu => by rw [if_neg hu]
  have htotal := total_add_le_of_ne hfin hother
  have hmid := finite_support (s := {t}) hfin fun u hu => hother u (by simpa using hu)
  have htask : ∀ u, effort ((st.perform t rest out).todo u) =
      (if u = t then effort (out.next ++ rest) else effort (st.todo u)) +
        effort (started u out.spawn) := by
    intro u
    simp only [State.perform, effort_append]
    split <;> simp
  simp only [htodo, if_pos, effort_append, effort_act] at htotal
  cases hspawn : out.spawn with
  | none =>
    simp only [htask, hspawn, started, effort_nil, Nat.add_zero, startEffort]
    refine ⟨hmid, ?_⟩
    simp only [effort_append]
    omega
  | some up =>
    obtain ⟨v, q⟩ := up
    have hnew : ∀ u, u ≠ v → effort ((st.perform t rest out).todo u) ≤
        if u = t then effort (out.next ++ rest) else effort (st.todo u) := by
      intro u hu
      rw [htask, hspawn, started, if_neg hu, effort_nil, Nat.add_zero]
    have htotal' := total_add_le_of_ne hmid hnew
    have hself : effort ((st.perform t rest out).todo v) =
        (if v = t then effort (out.next ++ rest) else effort (st.todo v)) + effort q := by
      rw [htask, hspawn, started, if_pos rfl]
    refine ⟨finite_support (s := {v}) hmid fun u hu => hnew u (by simpa using hu), ?_⟩
    simp only [hself, effort_append] at htotal'
    simp only [startEffort]
    omega

/-- Every act leaves finitely much. -/
theorem counted_next (h : exec t a i sh = some out) (hset : Setup a sh) (hN : Numbered sh)
    (hF : ∀ p, ∃ ms, sh.content p = frames ms) (hC : Counted sh) : Counted out.shared := by
  have hsame : ∀ sh' : Shared, sh'.toPipe = sh.toPipe → sh'.fromPipe = sh.fromPipe →
      sh'.proc = sh.proc → sh'.clients = sh.clients → Counted sh' :=
    fun sh' hto hfrom hproc hclients =>
      (costs_same hto hfrom hproc fun s => by rw [hclients]).finite hC
  cases a
  case select | accept | bridge =>
    simp only [exec] at h
    repeat' split at h
    all_goals cases h
    all_goals exact hsame _ rfl rfl rfl rfl
  all_goals
    obtain ⟨g, c, hcosts, -⟩ := paid h trivial hset hN hF (by simp)
    exact hcosts.finite hC

/-- What the processes have ahead is finite, and pipes hold whole messages. -/
structure Budgeted (st : State) : Prop where
  inTurns : InTurns st
  frames : ∀ p, ∃ ms, st.shared.content p = frames ms
  counted : Counted st.shared
  efforts : (fun t => effort (st.todo t)).support.Finite

theorem budgeted_init (history : History) : Budgeted (init history) := by
  refine ⟨inTurns_init history, fun p => ⟨[], by cases p <;> rfl⟩, ⟨?_, ?_⟩, ?_⟩
  · have hempty : (fun p => Pipe.cost p * ((init history).shared.content p).length) = 0 := by
      ext1 p
      cases p <;> rfl
    rw [hempty, Function.support_zero]
    exact Set.finite_empty
  · have hempty : (fun p => if ((init history).shared.proc p).isSome then 1 else 0) =
        (0 : Nat → Nat) := rfl
    rw [hempty, Function.support_zero]
    exact Set.finite_empty
  · refine (Set.toFinite {Tid.parent, Tid.sigchld}).subset fun t ht => ?_
    cases t with
    | parent => exact Or.inl rfl
    | sigchld => exact Or.inr rfl
    | child k => exact absurd rfl ht

theorem Budgeted.step (h : Budgeted st) (hs : Fork.step st l = some st') : Budgeted st' := by
  refine ⟨h.inTurns.step hs, fun p => ?_, ?_, ?_⟩
  · obtain ⟨ms, hms⟩ := h.frames p
    obtain ⟨ms', hms', -⟩ := traffic_step hs hms
    exact ⟨ms', hms'⟩
  all_goals
    obtain ⟨a, rest, out, htodo, hexec, rfl⟩ := step_act hs
  · have hout := h.inTurns.inReading.outlined l.1
    rw [htodo] at hout
    exact counted_next hexec (hout.1 a rfl).1 h.inTurns.inReading.numbered h.frames h.counted
  · exact (total_perform h.efforts htodo out).1

theorem budgeted_of_reachable (h : Reachable step (init history) st) : Budgeted st :=
  h.invariant (budgeted_init history) fun _ _ _ hi hs => hi.step hs

/-- `select` is the last act of a turn, and watches what the slots with a pid read from. -/
theorem Turn.of_select (h : Turn sh (.act (.select rfds) :: rest)) :
    rest = [] ∧ ∀ s, (sh.clients s).pid ≠ 0 → (sh.clients s).fromChild.1 ∈ rfds := by
  generalize hp : (.act (.select rfds) :: rest : Code) = p at h
  cases h with
  | @check front slots rfds' hfront hw hslots hready =>
    cases front with
    | nil => cases hp
    | cons b front =>
      have hb := hfront b List.mem_cons_self
      obtain rfl := Stmt.act.inj (List.cons.inj hp).1
      cases hb
  | select hw hall =>
    cases hp
    exact ⟨rfl, hall⟩
  | _ => cases hp

/-- Work makes the workload less. -/
theorem Budgeted.workload_step (h : Budgeted st) (hw : Works st l)
    (hs : Fork.step st l = some st') : workload st' < workload st := by
  have hi := h.inTurns.inReading
  obtain ⟨a, rest, out, htodo, hexec, rfl⟩ := step_act hs
  have hown : a.owner = l.1 := hi.owned l.1 a (htodo ▸ List.mem_cons_self)
  have hset : Setup a st.shared := by
    have hout := hi.outlined l.1
    rw [htodo] at hout
    exact (hout.1 a rfl).1
  have htotal := (total_perform h.efforts htodo out).2
  have hparent : (st.perform l.1 rest out).todo .parent = _ := todo_parent_perform hexec
  change Shared.load out.shared + _ + debt out.shared ((st.perform l.1 rest out).todo .parent) < _
  rw [workload, hparent]
  by_cases hsel : ∃ rfds, a = .select rfds
  · obtain ⟨rfds, rfl⟩ := hsel
    obtain ⟨hint, hwait, fd, hfd, hr⟩ := hw _ rest htodo
    have hl : Tid.parent = l.1 := hown
    have hturn := h.inTurns.turn
    rw [hl, htodo] at hturn
    obtain rfl := hturn.of_select.1
    have hdebt := debt_select hfd hr
    simp only [exec, hint, hwait] at hexec
    obtain rfl := goOn_inj hexec
    rw [if_pos hl, hl, htodo, List.append_nil]
    simp only [startEffort] at htotal
    have hone : effort (code [.select rfds]) = (Act.select rfds).cost := rfl
    rw [hone] at hdebt
    have hcode : (code [.select rfds]) = [Stmt.act (.select rfds)] := rfl
    rw [hcode] at hdebt
    simp only [Bool.false_eq_true, if_false, List.nil_append] at htotal ⊢
    omega
  · have hsel : ∀ rfds, a ≠ .select rfds := fun rfds he => hsel ⟨rfds, he⟩
    obtain ⟨g, c, hcosts, hle, hcalm⟩ :=
      paid hexec (hw a rest htodo) hset hi.numbered h.frames hsel
    have hload := hcosts.le h.counted
    rcases hcalm with hcalm | hpay
    · have hdebt : debt out.shared (if Tid.parent = l.1 then out.next ++ rest
          else st.todo .parent) ≤ debt st.shared (st.todo .parent) := by
        split
        · next hl =>
          rw [hl, htodo]
          exact debt_next hexec hcalm hset (hown.trans hl.symm) hsel rest
        · exact (hcalm.holding (change_of_exec hexec) hset).debt_le _
      omega
    · have htwo := debt_le_two out.shared (if Tid.parent = l.1 then out.next ++ rest
        else st.todo .parent)
      omega

end ChatSystem.Fork
