import Neoseq.Lease.Tabs

/-! At most one consumer holds the exclusive lease. An acquisition that is exclusive and not
released has the lock, or an attempt that holds the election; its consumers take turns. -/

namespace Neoseq.Lease

variable {K : Type} {route : Route} {b : Browser K}

/-! ## What an election keeps -/

/-- Attempts go on, and only a claimant whose channel is open comes to hold the lease. -/
structure Evolves (e e' : Election K) : Prop where
  length : e'.attempts.length = e.attempts.length
  attempts : ∀ (i : Nat) (attempt : Attempt K), e.attempts[i]? = some attempt → ∃ next,
    e'.attempts[i]? = some next ∧
    (next = attempt ∨ attempt.outcome = none ∧
      (next.outcome = some .exclusive → next.isOpen = true))

theorem Evolves.refl (e : Election K) : Evolves e e :=
  ⟨rfl, fun _ attempt hfound => ⟨attempt, hfound, .inl rfl⟩⟩

theorem evolves_put {e : Election K} {i : Nat} {attempt next : Attempt K} {mail : List (Mail K)}
    (hfound : e.attempts[i]? = some attempt) (hnone : attempt.outcome = none)
    (hopen : next.outcome = some .exclusive → next.isOpen = true) :
    Evolves e { e.put i next with mail := mail } := by
  refine ⟨List.length_set, fun j attempt' hfound' => ?_⟩
  by_cases heq : i = j
  · subst heq
    obtain rfl := Option.some.inj (hfound'.symm.trans hfound)
    have hin := (List.getElem?_eq_some_iff.mp hfound).1
    exact ⟨next, List.getElem?_set_self hin, .inr ⟨hnone, hopen⟩⟩
  · exact ⟨attempt', (List.getElem?_set_ne heq).trans hfound', .inl rfl⟩

section
variable [LinearOrder K]

theorem evolves_timer (e : Election K) (i : Nat) : Evolves e (e.timer i) := by
  unfold Election.timer
  split
  · next attempt hfound =>
    split
    · next hfires => exact evolves_put hfound hfires.2.1 fun _ => hfires.1
    · exact .refl e
  · exact .refl e

theorem evolves_deliver (e : Election K) (k : Nat) : Evolves e (e.deliver k) := by
  unfold Election.deliver
  split
  · exact .refl e
  · next mail _ =>
    dsimp only
    split
    · next attempt hfound =>
      split
      · unfold Election.receive
        split
        · next hnone _ =>
          split
          · exact ⟨rfl, (Evolves.refl e).attempts⟩
          · exact evolves_put hfound hnone nofun
        · next hnone _ =>
          split
          · exact evolves_put hfound hnone nofun
          · exact ⟨rfl, (Evolves.refl e).attempts⟩
        · exact ⟨rfl, (Evolves.refl e).attempts⟩
        · exact ⟨rfl, (Evolves.refl e).attempts⟩
      · exact ⟨rfl, (Evolves.refl e).attempts⟩
    · exact ⟨rfl, (Evolves.refl e).attempts⟩

end

/-! ## Acquisitions -/

def TabLease.isExclusive (lease : TabLease) : Prop :=
  lease.mode = .resolved .exclusive ∧ lease.released = false

/-- An attempt for an acquisition holds the election. -/
def Elected (b : Browser K) (l : Nat) : Prop :=
  ∃ (i : Nat) (claimant : Claimant) (attempt : Attempt K),
  b.claimants[i]? = some claimant ∧ b.election.attempts[i]? = some attempt ∧
    claimant.lease = l ∧ attempt.outcome = some .exclusive ∧ attempt.isOpen = true

/-- What makes an acquisition exclusive. -/
structure Backed (route : Route) (b : Browser K) : Prop where
  ordered : Ordered b.election
  parallel : b.claimants.length = b.election.attempts.length
  known : ∀ claimant ∈ b.claimants, claimant.lease < b.leases.length
  closed : ∀ (i : Nat) (claimant : Claimant) (attempt : Attempt K) (lease : TabLease),
    b.claimants[i]? = some claimant → b.election.attempts[i]? = some attempt → b.leases[claimant.lease]? = some lease →
      attempt.outcome = some .exclusive → attempt.isOpen = false → lease.released = true
  locks : ∀ (l l' : Nat) (lease lease' : TabLease), b.leases[l]? = some lease →
    b.leases[l']? = some lease' → lease.locked = true → lease'.locked = true → l = l'
  backed : ∀ (l : Nat) (lease : TabLease), b.leases[l]? = some lease → lease.isExclusive →
    (route = .webLocks ∧ lease.locked = true) ∨ (route = .elected ∧ Elected b l)

/-- Two acquisitions are not exclusive at once. -/
theorem Backed.exclusive_unique (h : Backed route b) {l l' : Nat} {lease lease' : TabLease}
    (hl : b.leases[l]? = some lease) (hl' : b.leases[l']? = some lease')
    (hlease : lease.isExclusive) (hlease' : lease'.isExclusive) : l = l' := by
  rcases h.backed l lease hl hlease with ⟨hroute, hlocked⟩ | ⟨hroute, helected⟩
  · rcases h.backed l' lease' hl' hlease' with ⟨_, hlocked'⟩ | ⟨hroute', _⟩
    · exact h.locks l l' lease lease' hl hl' hlocked hlocked'
    · rw [hroute] at hroute'
      cases hroute'
  · rcases h.backed l' lease' hl' hlease' with ⟨hroute', _⟩ | ⟨_, helected'⟩
    · rw [hroute] at hroute'
      cases hroute'
    · obtain ⟨i, claimant, attempt, hi, ha, hlease, hout, hopen⟩ := helected
      obtain ⟨j, claimant', attempt', hj, ha', hlease', hout', hopen'⟩ := helected'
      have hij : i = j := h.ordered.holder_unique ha ha' hopen hopen'
        (by rw [hout]; nofun) (by rw [hout']; nofun)
      subst hij
      obtain rfl := Option.some.inj (hi.symm.trans hj)
      exact hlease.symm.trans hlease'

theorem getElem?_set_cases {α : Type} {xs : List α} {i j : Nat} {x y : α}
    (h : (xs.set i x)[j]? = some y) : (j = i ∧ y = x) ∨ (j ≠ i ∧ xs[j]? = some y) := by
  by_cases heq : i = j
  · subst heq
    have hin := (List.getElem?_eq_some_iff.mp h).1
    rw [List.length_set] at hin
    rw [List.getElem?_set_self hin] at h
    exact .inl ⟨rfl, (Option.some.inj h).symm⟩
  · rw [List.getElem?_set_ne heq] at h
    exact .inr ⟨Ne.symm heq, h⟩

/-- The election goes on. -/
theorem Backed.evolves (h : Backed route b) {e : Election K} (hordered : Ordered e)
    (hevolves : Evolves b.election e) : Backed route { b with election := e } where
  ordered := hordered
  parallel := h.parallel.trans hevolves.length.symm
  known := h.known
  closed i claimant next lease hclaimant hnext hlease hout hclosed := by
    have hin : i < b.election.attempts.length := by
      rw [← hevolves.length]
      exact (List.getElem?_eq_some_iff.mp hnext).1
    obtain ⟨next', hnext', hsame | ⟨_, hopen⟩⟩ :=
      hevolves.attempts i _ (List.getElem?_eq_getElem hin)
    · obtain rfl := Option.some.inj (hnext.symm.trans hnext')
      exact h.closed i claimant next lease hclaimant
        (by rw [hsame]; exact List.getElem?_eq_getElem hin) hlease hout hclosed
    · obtain rfl := Option.some.inj (hnext.symm.trans hnext')
      rw [hopen hout] at hclosed
      cases hclosed
  locks := h.locks
  backed l lease hlease hexclusive := by
    refine (h.backed l lease hlease hexclusive).imp id fun ⟨hroute, i, claimant, attempt, hi, ha,
      hof, hout, hopen⟩ => ⟨hroute, i, claimant, ?_⟩
    obtain ⟨next, hnext, rfl | ⟨hnone, _⟩⟩ := hevolves.attempts i attempt ha
    · exact ⟨next, hi, hnext, hof, hout, hopen⟩
    · rw [hnone] at hout
      cases hout

/-- An acquisition changes, and is exclusive only if it was or is backed. -/
theorem Backed.putLease (h : Backed route b) {l : Nat} {lease next : TabLease}
    (hfound : b.leases[l]? = some lease)
    (hreleased : lease.released = true → next.released = true)
    (hlocked : next.locked = true → lease.locked = true ∨ b.isFree = true)
    (hbacked : next.isExclusive → lease.isExclusive ∧ next.locked = lease.locked ∨
      (route = .webLocks ∧ next.locked = true) ∨ (route = .elected ∧ Elected b l)) :
    Backed route (b.putLease l next) where
  ordered := h.ordered
  parallel := h.parallel
  known claimant hmem := by
    show _ < (b.leases.set l next).length
    rw [List.length_set]
    exact h.known claimant hmem
  closed i claimant attempt lease' hclaimant hattempt hlease hout hclosed := by
    rcases getElem?_set_cases hlease with ⟨heq, rfl⟩ | ⟨_, hlease⟩
    · exact hreleased (h.closed i claimant attempt lease hclaimant hattempt (heq ▸ hfound) hout hclosed)
    · exact h.closed i claimant attempt lease' hclaimant hattempt hlease hout hclosed
  locks k k' lease₁ lease₂ h₁ h₂ hlocked₁ hlocked₂ := by
    -- a lock that is granted anew is the only one
    have hfree : ∀ {j : Nat} {other : TabLease}, b.leases[j]? = some other → other.locked = true →
        b.isFree = true → False := by
      intro j other hother hlocked hfree
      have hno := List.all_eq_true.mp hfree other (List.mem_of_getElem? hother)
      rw [hlocked] at hno
      cases hno
    rcases getElem?_set_cases h₁ with ⟨rfl, rfl⟩ | ⟨_, hold₁⟩
    · rcases getElem?_set_cases h₂ with ⟨rfl, rfl⟩ | ⟨_, hold₂⟩
      · rfl
      · rcases hlocked hlocked₁ with hwas | hnew
        · exact h.locks _ _ lease lease₂ hfound hold₂ hwas hlocked₂
        · exact (hfree hold₂ hlocked₂ hnew).elim
    · rcases getElem?_set_cases h₂ with ⟨rfl, rfl⟩ | ⟨_, hold₂⟩
      · rcases hlocked hlocked₂ with hwas | hnew
        · exact h.locks _ _ lease₁ lease hold₁ hfound hlocked₁ hwas
        · exact (hfree hold₁ hlocked₁ hnew).elim
      · exact h.locks _ _ lease₁ lease₂ hold₁ hold₂ hlocked₁ hlocked₂
  backed k lease' hlease hexclusive := by
    rcases getElem?_set_cases hlease with ⟨rfl, rfl⟩ | ⟨_, hlease⟩
    · rcases hbacked hexclusive with ⟨hwas, hsame⟩ | hbacked
      · rw [hsame]
        exact h.backed _ lease hfound hwas
      · exact hbacked
    · exact h.backed k lease' hlease hexclusive

/-- A change of an acquisition that leaves what it has. -/
theorem Backed.touch (h : Backed route b) {l : Nat} {lease next : TabLease}
    (hfound : b.leases[l]? = some lease)
    (hreleased : lease.released = true → next.released = true)
    (hlocked : next.locked = lease.locked) (hmode : next.isExclusive → lease.isExclusive) :
    Backed route (b.putLease l next) :=
  h.putLease hfound hreleased (fun hlock => .inl (hlocked ▸ hlock))
    fun hexclusive => .inl ⟨hmode hexclusive, hlocked⟩

/-- What a change of consumers and of the tables has no part in. -/
theorem Backed.same {b' : Browser K} (h : Backed route b) (hleases : b'.leases = b.leases)
    (helection : b'.election = b.election) (hclaimants : b'.claimants = b.claimants) :
    Backed route b' := by
  obtain ⟨leases, tabLeases, consumers, election, claimants⟩ := b'
  obtain rfl : leases = b.leases := hleases
  obtain rfl : election = b.election := helection
  obtain rfl : claimants = b.claimants := hclaimants
  exact ⟨h.ordered, h.parallel, h.known, h.closed, h.locks, h.backed⟩

theorem getElem?_snoc_cases {α : Type} {l : List α} {j : Nat} {x y : α}
    (h : (l ++ [x])[j]? = some y) : (j = l.length ∧ y = x) ∨ l[j]? = some y := by
  by_cases hin : j < l.length
  · rw [List.getElem?_append_left hin] at h
    exact .inr h
  · have hlength := (List.getElem?_eq_some_iff.mp h).1
    rw [List.length_append, List.length_singleton] at hlength
    obtain rfl : j = l.length := by omega
    rw [List.getElem?_concat_length] at h
    exact .inl ⟨rfl, (Option.some.inj h).symm⟩

theorem getElem?_snoc_of_some {α : Type} {l : List α} {j : Nat} {x y : α}
    (h : l[j]? = some y) : (l ++ [x])[j]? = some y :=
  (List.getElem?_append_left (List.getElem?_eq_some_iff.mp h).1).trans h

/-- An acquisition claims the lease. -/
theorem Backed.electionAttempt (h : Backed route b) {l : Nat} (hl : l < b.leases.length)
    (claim : K) : Backed route (b.electionAttempt l claim) where
  ordered := h.ordered.attempt claim
  parallel := by
    show (b.claimants ++ [_]).length = (b.election.attempts ++ [_]).length
    rw [List.length_append, List.length_append, h.parallel]
    rfl
  known claimant hmem := by
    rcases List.mem_append.mp hmem with hmem | hmem
    · exact h.known claimant hmem
    · obtain rfl := List.mem_singleton.mp hmem
      exact hl
  closed i claimant attempt lease hclaimant hattempt hlease hout hclosed := by
    rcases getElem?_snoc_cases (l := b.election.attempts) hattempt with ⟨_, rfl⟩ | hold
    · cases hout
    · rcases getElem?_snoc_cases hclaimant with ⟨rfl, _⟩ | hold'
      · rw [h.parallel, List.getElem?_length] at hold
        cases hold
      · exact h.closed i claimant attempt lease hold' hold hlease hout hclosed
  locks := h.locks
  backed l' lease hlease hexclusive := by
    refine (h.backed l' lease hlease hexclusive).imp id fun ⟨hroute, i, claimant, attempt, hi, ha,
      hof, hout, hopen⟩ => ⟨hroute, i, claimant, attempt, ?_, ?_, hof, hout, hopen⟩
    · exact getElem?_snoc_of_some hi
    · exact getElem?_snoc_of_some (l := b.election.attempts) ha

theorem Backed.create (h : Backed route b) (lease : TabLease) (tabLeases : Nat → Option Nat)
    (hmode : lease.mode ≠ .resolved .exclusive) (hlocked : lease.locked = false) :
    Backed route { b with leases := b.leases ++ [lease], tabLeases := tabLeases } where
  ordered := h.ordered
  parallel := h.parallel
  known claimant hmem := by
    show _ < (b.leases ++ [lease]).length
    rw [List.length_append]
    exact Nat.lt_add_right _ (h.known claimant hmem)
  closed i claimant attempt lease' hclaimant hattempt hlease hout hclosed := by
    rcases getElem?_snoc_cases hlease with ⟨heq, _⟩ | hlease
    · exact absurd heq (Nat.ne_of_lt (h.known claimant (List.mem_of_getElem? hclaimant)))
    · exact h.closed i claimant attempt lease' hclaimant hattempt hlease hout hclosed
  locks k k' lease₁ lease₂ h₁ h₂ hlocked₁ hlocked₂ := by
    rcases getElem?_snoc_cases h₁ with ⟨_, rfl⟩ | h₁
    · rw [hlocked] at hlocked₁
      cases hlocked₁
    · rcases getElem?_snoc_cases h₂ with ⟨_, rfl⟩ | h₂
      · rw [hlocked] at hlocked₂
        cases hlocked₂
      · exact h.locks k k' lease₁ lease₂ h₁ h₂ hlocked₁ hlocked₂
  backed l lease' hlease hexclusive := by
    rcases getElem?_snoc_cases hlease with ⟨_, rfl⟩ | hlease
    · exact absurd hexclusive.1 hmode
    · exact h.backed l lease' hlease hexclusive

theorem Backed.createTabLease (h : Backed route b) (tab : Nat) (wait aborted : Bool) (claim : K) :
    Backed route (b.createTabLease route tab wait aborted claim) := by
  have hcreated := fun mode (hmode : mode ≠ Mode.resolved .exclusive) =>
    h.create ⟨tab, wait, aborted, 0, mode, false, false, false⟩
      (Function.update b.tabLeases tab (some b.leases.length)) hmode rfl
  have hmode : (if route = .elected ∧ aborted = true then Mode.rejected else .pending) ≠
      .resolved .exclusive := by
    split
    · nofun
    · nofun
  unfold Browser.createTabLease
  dsimp only
  split
  · refine (hcreated _ hmode).electionAttempt ?_ claim
    show _ < (b.leases ++ [_]).length
    rw [List.length_append]
    exact Nat.lt_add_one _
  · exact hcreated _ hmode

theorem Backed.join (h : Backed route b) {l : Nat} {lease : TabLease}
    (hfound : b.leases[l]? = some lease) (wait : Bool) : Backed route (b.join l lease wait) := by
  have hput : Backed route (b.putLease l { lease with consumers := lease.consumers + 1 }) :=
    h.touch hfound id rfl id
  exact hput.same rfl rfl rfl

theorem Backed.joinTab (h : Backed route b) (tab : Nat) (wait : Bool) :
    Backed route (b.joinTab tab wait) := by
  unfold Browser.joinTab
  split
  · split
    · next hfound => exact h.join hfound wait
    · exact h
  · exact h

theorem Backed.acquireLease (h : Backed route b) (tab : Nat) (wait aborted : Bool) (claim : K) :
    Backed route (b.acquireLease route tab wait aborted claim) := by
  unfold Browser.acquireLease
  split
  · exact h.joinTab tab wait
  · exact (h.createTabLease tab wait aborted claim).joinTab tab wait

theorem Backed.leave (h : Backed route b) {c : Nat} {consumer : Consumer} {stage : ConsumerStage}
    {lease : TabLease} (hfound : b.leases[consumer.lease]? = some lease) :
    Backed route (b.leave c consumer stage lease) := by
  unfold Browser.leave Browser.releaseConsumer
  have hput : Backed route (b.putConsumer c { consumer with stage := stage, finished := true }) :=
    h.same rfl rfl rfl
  split
  · exact hput.touch hfound id rfl id
  · have hreleased : Backed route (Browser.putLease _ consumer.lease
        { lease with consumers := lease.consumers - 1, released := true }) :=
      hput.touch hfound (fun _ => rfl) rfl nofun
    exact hreleased.same rfl rfl rfl

theorem Backed.resume (h : Backed route b) {c : Nat} {consumer : Consumer} {lease : TabLease}
    (hfound : b.leases[consumer.lease]? = some lease) (aborted : Bool) (claim : K) :
    Backed route (b.resume route c consumer lease aborted claim) := by
  unfold Browser.resume
  split
  · exact h
  · exact h.leave hfound
  · exact h.same rfl rfl rfl
  · split
    · have hretired : Backed route ((b.leave c consumer .retired lease).retire consumer.lease lease) :=
        (h.leave hfound).same rfl rfl rfl
      exact hretired.acquireLease _ _ _ _
    · exact h.same rfl rfl rfl

/-- The channel of an acquisition that is released closes. -/
theorem Backed.close (h : Backed route b) {i : Nat} {claimant : Claimant} {lease : TabLease}
    (hclaimant : b.claimants[i]? = some claimant)
    (hlease : b.leases[claimant.lease]? = some lease) (hreleased : lease.released = true) :
    Backed route { b with election := b.election.close i } := by
  unfold Election.close
  split
  · next attempt hattempt =>
    refine ⟨?_, ?_, h.known, ?_, h.locks, ?_⟩
    · exact h.ordered.put hattempt rfl nofun nofun fun m hm => .inl hm
    · exact h.parallel.trans List.length_set.symm
    · intro j claimant' attempt' lease' hclaimant' hattempt' hlease' hout hclosed
      rcases getElem?_set_cases hattempt' with ⟨rfl, rfl⟩ | ⟨_, hold⟩
      · obtain rfl := Option.some.inj (hclaimant.symm.trans hclaimant')
        obtain rfl := Option.some.inj (hlease.symm.trans hlease')
        exact hreleased
      · exact h.closed j claimant' attempt' lease' hclaimant' hold hlease' hout hclosed
    · intro l lease' hlease' hexclusive
      refine (h.backed l lease' hlease' hexclusive).imp id fun ⟨hroute, j, claimant', attempt', hj,
        ha, hof, hout, hopen⟩ => ⟨hroute, j, claimant', attempt', hj, ?_, hof, hout, hopen⟩
      -- the acquisition that is exclusive is not the released one
      have hne : i ≠ j := by
        rintro rfl
        obtain rfl := Option.some.inj (hclaimant.symm.trans hj)
        rw [hof, hlease'] at hlease
        obtain rfl := Option.some.inj hlease
        rw [hexclusive.2] at hreleased
        cases hreleased
      exact (List.getElem?_set_ne hne).trans ha
  · exact h

theorem Backed.conclude (h : Backed route b) {i : Nat} {claimant : Claimant} {attempt : Attempt K}
    {lease : TabLease} {mode : LeaseMode} (hroute : route = .elected)
    (hclaimant : b.claimants[i]? = some claimant)
    (hattempt : b.election.attempts[i]? = some attempt) (hout : attempt.outcome = some mode)
    (hlease : b.leases[claimant.lease]? = some lease) :
    Backed route (b.conclude i claimant.lease lease mode) := by
  have hset : Backed route { b with claimants := b.claimants.set i ⟨claimant.lease, true⟩ } := by
    refine ⟨h.ordered, ?_, fun claimant' hmem => ?_, ?_, h.locks, ?_⟩
    · exact List.length_set.trans h.parallel
    · rcases List.mem_or_eq_of_mem_set hmem with hmem | rfl
      · exact h.known claimant' hmem
      · exact h.known claimant (List.mem_of_getElem? hclaimant)
    · intro j claimant' attempt' lease' hclaimant' hattempt' hlease' hout hclosed
      rcases getElem?_set_cases hclaimant' with ⟨rfl, rfl⟩ | ⟨_, hold⟩
      · exact h.closed _ claimant attempt' lease' hclaimant hattempt' hlease' hout hclosed
      · exact h.closed j claimant' attempt' lease' hold hattempt' hlease' hout hclosed
    · intro l lease' hlease' hexclusive
      refine (h.backed l lease' hlease' hexclusive).imp id fun ⟨hroute, j, claimant', attempt', hj,
        ha, hof, hout, hopen⟩ => ⟨hroute, j, ?_⟩
      by_cases heq : i = j
      · subst heq
        obtain rfl := Option.some.inj (hclaimant.symm.trans hj)
        have hin := (List.getElem?_eq_some_iff.mp hclaimant).1
        exact ⟨_, attempt', List.getElem?_set_self hin, ha, hof, hout, hopen⟩
      · exact ⟨claimant', attempt', (List.getElem?_set_ne heq).trans hj, ha, hof, hout, hopen⟩
  unfold Browser.conclude
  dsimp only
  split
  · refine hset.putLease hlease id .inl fun hexclusive => .inr (.inr ⟨hroute, i, ?_⟩)
    obtain rfl : mode = .exclusive := Mode.resolved.inj hexclusive.1
    have hin := (List.getElem?_eq_some_iff.mp hclaimant).1
    refine ⟨_, attempt, List.getElem?_set_self hin, hattempt, rfl, hout, ?_⟩
    by_contra hclosed
    have hreleased := h.closed i claimant attempt lease hclaimant hattempt hlease hout
      (Bool.eq_false_iff.mpr hclosed)
    rw [show lease.released = false from hexclusive.2] at hreleased
    cases hreleased
  · exact hset.touch hlease id rfl id

theorem Backed.reclaim (h : Backed route b) {l : Nat} {lease : TabLease}
    (hfound : b.leases[l]? = some lease) (claim : K) : Backed route (b.reclaim l lease claim) := by
  unfold Browser.reclaim
  split
  · exact h.touch hfound id rfl nofun
  · have hput : Backed route (b.putLease l { lease with reclaims := false }) :=
      h.touch hfound id rfl id
    refine hput.electionAttempt ?_ claim
    show l < (b.leases.set l _).length
    rw [List.length_set]
    exact (List.getElem?_eq_some_iff.mp hfound).1

/-! ## Consumers -/

/-- The consumers that an acquisition counts. -/
def counts (l : Nat) (consumer : Consumer) : Bool := decide (consumer.lease = l) && consumer.isActive

/-- How the consumers share the acquisitions. -/
structure Shared (b : Browser K) : Prop where
  table : ∀ (tab l : Nat), b.tabLeases tab = some l → ∃ lease, b.leases[l]? = some lease ∧
    lease.tab = tab ∧ lease.released = false
  counted : ∀ (l : Nat) (lease : TabLease), b.leases[l]? = some lease →
    lease.consumers = b.consumers.countP (counts l)
  released : ∀ (l : Nat) (lease : TabLease), b.leases[l]? = some lease →
    lease.released = true → lease.consumers = 0
  known : ∀ consumer ∈ b.consumers, consumer.lease < b.leases.length
  modes : ∀ consumer ∈ b.consumers, consumer.stage = .awaitingTurn ∨
    consumer.stage = .holding .exclusive → ∃ lease, b.leases[consumer.lease]? = some lease ∧
      lease.mode = .resolved .exclusive
  waiting : ∀ consumer ∈ b.consumers, consumer.stage = .awaitingMode ∨
    consumer.stage = .awaitingTurn ∨ consumer.stage = .holding .exclusive →
      consumer.finished = false
  turns : ∀ (c : Nat) (consumer : Consumer), b.consumers[c]? = some consumer →
    consumer.stage = .holding .exclusive → isTurn b.consumers c consumer = true

/-- A consumer that holds an exclusive lease which it has not released. -/
def HoldsExclusive (b : Browser K) (c : Nat) : Prop :=
  ∃ consumer, b.consumers[c]? = some consumer ∧ consumer.stage = .holding .exclusive

/-- The acquisition of a holder is not released. -/
theorem Shared.exclusive (h : Shared b) {consumer : Consumer} (hmem : consumer ∈ b.consumers)
    (hstage : consumer.stage = .holding .exclusive) :
    ∃ lease, b.leases[consumer.lease]? = some lease ∧ lease.isExclusive := by
  obtain ⟨lease, hlease, hmode⟩ := h.modes consumer hmem (.inr hstage)
  refine ⟨lease, hlease, hmode, Bool.eq_false_iff.mpr fun hreleased => ?_⟩
  have hnone := (h.counted _ lease hlease).symm.trans (h.released _ lease hlease hreleased)
  refine List.countP_eq_zero.mp hnone consumer hmem ?_
  unfold counts Consumer.isActive
  rw [hstage]
  exact Bool.and_eq_true_iff.mpr ⟨decide_eq_true rfl, rfl⟩

theorem isTurn_iff {consumers : List Consumer} {c : Nat} {consumer : Consumer} :
    isTurn consumers c consumer = true ↔ ∀ (d : Nat) (other : Consumer), d < c →
      consumers[d]? = some other → other.lease = consumer.lease → other.finished = true := by
  unfold isTurn
  rw [List.all_eq_true]
  constructor
  · intro hall d other hlt hother hlease
    have hdone := hall other (List.mem_of_getElem? ((List.getElem?_take_of_lt hlt).trans hother))
    rw [hlease] at hdone
    simpa using hdone
  · intro hall other hmem
    obtain ⟨d, hd⟩ := List.mem_iff_getElem?.mp hmem
    have hlt : d < c := by
      by_contra hnot
      rw [List.getElem?_take_eq_none (Nat.le_of_not_lt hnot)] at hd
      cases hd
    rw [List.getElem?_take_of_lt hlt] at hd
    by_cases hlease : other.lease = consumer.lease
    · rw [hall d other hlt hd hlease, Bool.or_true]
    · rw [decide_eq_true hlease, Bool.true_or]

/-- Consumers of one acquisition have it one after the other. -/
theorem Shared.turn_unique (h : Shared b) {c d : Nat} {one other : Consumer}
    (hc : b.consumers[c]? = some one) (hd : b.consumers[d]? = some other)
    (hone : one.stage = .holding .exclusive) (hother : other.stage = .holding .exclusive)
    (hlease : one.lease = other.lease) : ¬ c < d := by
  intro hlt
  have hturn := isTurn_iff.mp (h.turns d other hd hother) c one hlt hc hlease
  rw [h.waiting one (List.mem_of_getElem? hc) (.inr (.inr hone))] at hturn
  cases hturn

theorem holder_unique (h : Backed route b) (hs : Shared b) {c d : Nat}
    (hc : HoldsExclusive b c) (hd : HoldsExclusive b d) : c = d := by
  obtain ⟨one, hone, hstage⟩ := hc
  obtain ⟨other, hother, hstage'⟩ := hd
  obtain ⟨lease, hlease, hexclusive⟩ := hs.exclusive (List.mem_of_getElem? hone) hstage
  obtain ⟨lease', hlease', hexclusive'⟩ := hs.exclusive (List.mem_of_getElem? hother) hstage'
  have hsame := h.exclusive_unique hlease hlease' hexclusive hexclusive'
  have hcd := hs.turn_unique hone hother hstage hstage' hsame
  have hdc := hs.turn_unique hother hone hstage' hstage hsame.symm
  omega

/-- An acquisition changes where its consumers have no part in it. -/
theorem Shared.putLease (h : Shared b) {l : Nat} {lease next : TabLease}
    (hfound : b.leases[l]? = some lease) (hconsumers : next.consumers = lease.consumers)
    (htab : next.tab = lease.tab) (hreleased : next.released = lease.released)
    (hmode : lease.mode = .resolved .exclusive → next.mode = .resolved .exclusive) :
    Shared (b.putLease l next) where
  table tab k htable := by
    obtain ⟨lease', hlease', htab', hopen⟩ := h.table tab k htable
    by_cases heq : l = k
    · subst heq
      obtain rfl := Option.some.inj (hfound.symm.trans hlease')
      exact ⟨next, List.getElem?_set_self (List.getElem?_eq_some_iff.mp hfound).1,
        htab.trans htab', hreleased.trans hopen⟩
    · exact ⟨lease', (List.getElem?_set_ne heq).trans hlease', htab', hopen⟩
  counted k lease' hlease := by
    rcases getElem?_set_cases hlease with ⟨rfl, rfl⟩ | ⟨_, hold⟩
    · exact hconsumers.trans (h.counted _ lease hfound)
    · exact h.counted k lease' hold
  released k lease' hlease hout := by
    rcases getElem?_set_cases hlease with ⟨rfl, rfl⟩ | ⟨_, hold⟩
    · exact hconsumers.trans (h.released _ lease hfound (hreleased.symm.trans hout))
    · exact h.released k lease' hold hout
  known consumer hmem := by
    show _ < (b.leases.set l next).length
    rw [List.length_set]
    exact h.known consumer hmem
  modes consumer hmem hstage := by
    obtain ⟨lease', hlease', hexclusive⟩ := h.modes consumer hmem hstage
    by_cases heq : l = consumer.lease
    · rw [← heq, hfound] at hlease'
      obtain rfl := Option.some.inj hlease'
      rw [← heq]
      exact ⟨next, List.getElem?_set_self (List.getElem?_eq_some_iff.mp hfound).1,
        hmode hexclusive⟩
    · exact ⟨lease', (List.getElem?_set_ne heq).trans hlease', hexclusive⟩
  waiting := h.waiting
  turns := h.turns

theorem Shared.putPending (h : Shared b) {l : Nat} {lease next : TabLease}
    (hfound : b.leases[l]? = some lease) (hpending : lease.mode = .pending)
    (hconsumers : next.consumers = lease.consumers) (htab : next.tab = lease.tab)
    (hreleased : next.released = lease.released) : Shared (b.putLease l next) := by
  refine h.putLease hfound hconsumers htab hreleased fun hmode => ?_
  rw [hpending] at hmode
  cases hmode

theorem Shared.same {b' : Browser K} (h : Shared b) (hleases : b'.leases = b.leases)
    (hconsumers : b'.consumers = b.consumers) (htable : ∀ tab l, b'.tabLeases tab = some l →
      b.tabLeases tab = some l) : Shared b' := by
  obtain ⟨leases, tabLeases, consumers, election, claimants⟩ := b'
  obtain rfl : leases = b.leases := hleases
  obtain rfl : consumers = b.consumers := hconsumers
  exact ⟨fun tab l hl => h.table tab l (htable tab l hl), h.counted, h.released, h.known, h.modes,
    h.waiting, h.turns⟩

/-- A consumer that calls `finishTurn`, or not, spoils nobody's turn. -/
theorem isTurn_set {consumers : List Consumer} {c d : Nat} {consumer next other : Consumer}
    (hfound : consumers[c]? = some consumer) (hlease : next.lease = consumer.lease)
    (hfinished : consumer.finished = true → next.finished = true)
    (hturn : isTurn consumers d other = true) : isTurn (consumers.set c next) d other = true := by
  refine isTurn_iff.mpr fun e third hlt hthird hsame => ?_
  rcases getElem?_set_cases hthird with ⟨rfl, rfl⟩ | ⟨_, hold⟩
  · exact hfinished (isTurn_iff.mp hturn _ consumer hlt hfound (hlease.symm.trans hsame))
  · exact isTurn_iff.mp hturn e third hlt hold hsame

theorem countP_counts_set {consumers : List Consumer} {c : Nat} {consumer next : Consumer}
    (hfound : consumers[c]? = some consumer) (l : Nat) :
    (consumers.set c next).countP (counts l) = consumers.countP (counts l) -
      (if counts l consumer then 1 else 0) + (if counts l next then 1 else 0) := by
  obtain ⟨hin, rfl⟩ := List.getElem?_eq_some_iff.mp hfound
  exact List.countP_set hin

/-- A consumer goes on and stays one of its acquisition. -/
theorem Shared.putConsumer (h : Shared b) {c : Nat} {consumer next : Consumer}
    (hfound : b.consumers[c]? = some consumer) (hlease : next.lease = consumer.lease)
    (hactive : next.isActive = consumer.isActive)
    (hmodes : next.stage = .awaitingTurn ∨ next.stage = .holding .exclusive →
      ∃ lease, b.leases[consumer.lease]? = some lease ∧ lease.mode = .resolved .exclusive)
    (hwaiting : next.stage = .awaitingMode ∨ next.stage = .awaitingTurn ∨
      next.stage = .holding .exclusive → next.finished = false)
    (hfinished : consumer.finished = true → next.finished = true)
    (hturns : next.stage = .holding .exclusive → isTurn b.consumers c consumer = true) :
    Shared (b.putConsumer c next) where
  table := h.table
  counted l lease hl := by
    refine (h.counted l lease hl).trans ((countP_counts_set hfound l).trans ?_).symm
    have hsame : counts l next = counts l consumer := by
      unfold counts
      rw [hlease, hactive]
    rw [hsame]
    refine Nat.sub_add_cancel ?_
    split
    · next hcounts => exact List.countP_pos_iff.mpr ⟨consumer, List.mem_of_getElem? hfound, hcounts⟩
    · exact Nat.zero_le _
  released := h.released
  known other hmem := by
    rcases List.mem_or_eq_of_mem_set hmem with hmem | rfl
    · exact h.known other hmem
    · rw [hlease]
      exact h.known consumer (List.mem_of_getElem? hfound)
  modes other hmem hstage := by
    rcases List.mem_or_eq_of_mem_set hmem with hmem | rfl
    · exact h.modes other hmem hstage
    · rw [hlease]
      exact hmodes hstage
  waiting other hmem hstage := by
    rcases List.mem_or_eq_of_mem_set hmem with hmem | rfl
    · exact h.waiting other hmem hstage
    · exact hwaiting hstage
  turns d other hother hstage := by
    refine isTurn_set hfound hlease hfinished ?_
    rcases getElem?_set_cases hother with ⟨rfl, rfl⟩ | ⟨_, hold⟩
    · refine isTurn_iff.mpr fun e third hlt hthird hsame => ?_
      exact isTurn_iff.mp (hturns hstage) e third hlt hthird (hsame.trans hlease)
    · exact h.turns d other hold hstage

/-- A consumer joins an acquisition that is not released. -/
theorem Shared.join (h : Shared b) {l : Nat} {lease : TabLease} (hfound : b.leases[l]? = some lease)
    (hopen : lease.released = false) (wait : Bool) : Shared (b.join l lease wait) where
  table tab k htable := by
    obtain ⟨lease', hlease', htab, hreleased⟩ := h.table tab k htable
    by_cases heq : l = k
    · subst heq
      obtain rfl := Option.some.inj (hfound.symm.trans hlease')
      exact ⟨_, List.getElem?_set_self (List.getElem?_eq_some_iff.mp hfound).1, htab, hreleased⟩
    · exact ⟨lease', (List.getElem?_set_ne heq).trans hlease', htab, hreleased⟩
  counted k lease' hlease := by
    show _ = (b.consumers ++ [_]).countP _
    rw [List.countP_append, List.countP_singleton]
    rcases getElem?_set_cases hlease with ⟨rfl, rfl⟩ | ⟨hne, hold⟩
    · have hcounts : counts k ⟨k, wait, .awaitingMode, false⟩ = true :=
        Bool.and_eq_true_iff.mpr ⟨decide_eq_true rfl, rfl⟩
      rw [if_pos hcounts, ← h.counted k lease hfound]
    · have hcounts : counts k ⟨l, wait, .awaitingMode, false⟩ = false := by
        unfold counts
        rw [decide_eq_false (Ne.symm hne), Bool.false_and]
      rw [hcounts, h.counted k lease' hold]
      rfl
  released k lease' hlease hreleased := by
    rcases getElem?_set_cases hlease with ⟨rfl, rfl⟩ | ⟨_, hold⟩
    · rw [hopen] at hreleased
      cases hreleased
    · exact h.released k lease' hold hreleased
  known consumer hmem := by
    show _ < (b.leases.set l _).length
    rw [List.length_set]
    rcases List.mem_append.mp hmem with hmem | hmem
    · exact h.known consumer hmem
    · obtain rfl := List.mem_singleton.mp hmem
      exact (List.getElem?_eq_some_iff.mp hfound).1
  modes consumer hmem hstage := by
    rcases List.mem_append.mp hmem with hmem | hmem
    · obtain ⟨lease', hlease', hmode⟩ := h.modes consumer hmem hstage
      by_cases heq : l = consumer.lease
      · rw [← heq, hfound] at hlease'
        obtain rfl := Option.some.inj hlease'
        rw [← heq]
        exact ⟨_, List.getElem?_set_self (List.getElem?_eq_some_iff.mp hfound).1, hmode⟩
      · exact ⟨lease', (List.getElem?_set_ne heq).trans hlease', hmode⟩
    · obtain rfl := List.mem_singleton.mp hmem
      rcases hstage with hstage | hstage <;> cases hstage
  waiting consumer hmem hstage := by
    rcases List.mem_append.mp hmem with hmem | hmem
    · exact h.waiting consumer hmem hstage
    · obtain rfl := List.mem_singleton.mp hmem
      rfl
  turns c consumer hconsumer hstage := by
    refine isTurn_iff.mpr fun d other hlt hother hsame => ?_
    rcases getElem?_snoc_cases hconsumer with ⟨_, rfl⟩ | hold
    · cases hstage
    · have hin := (List.getElem?_eq_some_iff.mp hold).1
      change (b.consumers ++ [_])[d]? = _ at hother
      rw [List.getElem?_append_left (Nat.lt_trans hlt hin)] at hother
      exact isTurn_iff.mp (h.turns c consumer hold hstage) d other hlt hother hsame

/-- An acquisition is taken out of the table where it is the tab's. -/
theorem of_unlisted {table : Nat → Option Nat} {tab tab' l l' : Nat}
    (h : (if table tab' = some l' then Function.update table tab' none else table) tab = some l) :
    table tab = some l ∧ (l = l' → tab' ≠ tab) := by
  by_cases hpoints : table tab' = some l'
  · rw [if_pos hpoints] at h
    by_cases heq : tab = tab'
    · rw [heq, Function.update_self] at h
      cases h
    · rw [Function.update_of_ne heq] at h
      exact ⟨h, fun _ => Ne.symm heq⟩
  · rw [if_neg hpoints] at h
    refine ⟨h, fun heq htab => hpoints ?_⟩
    rw [htab, h, heq]

/-- A consumer leaves its acquisition, which is released when nobody is left. -/
theorem Shared.leave (h : Shared b) {c : Nat} {consumer : Consumer} {lease : TabLease}
    (hfound : b.consumers[c]? = some consumer) (hlease : b.leases[consumer.lease]? = some lease)
    (hactive : consumer.isActive = true) {stage : ConsumerStage}
    (hstage : stage = .released ∨ stage = .failed ∨ stage = .retired) :
    Shared (b.leave c consumer stage lease) := by
  have hmem := List.mem_of_getElem? hfound
  have hin := (List.getElem?_eq_some_iff.mp hlease).1
  let next : Consumer := { consumer with stage := stage, finished := true }
  have hidle : next.isActive = false := by
    unfold Consumer.isActive
    rcases hstage with rfl | rfl | rfl <;> rfl
  have hnot : ∀ stage', stage' = .awaitingMode ∨ stage' = .awaitingTurn ∨
      stage' = ConsumerStage.holding .exclusive → next.stage ≠ stage' := by
    intro stage' hstage' heq
    obtain rfl : stage = stage' := heq
    rcases hstage with rfl | rfl | rfl <;> simp at hstage'
  -- the number that is left, and the acquisitions that others count on
  have hcounted : ∀ (k : Nat) (lease' : TabLease), b.leases[k]? = some lease' →
      (if k = consumer.lease then lease'.consumers - 1 else lease'.consumers) =
        (b.consumers.set c next).countP (counts k) := by
    intro k lease' hlease'
    rw [countP_counts_set hfound, ← h.counted k lease' hlease']
    have hnext : counts k next = false := by
      unfold counts
      rw [hidle, Bool.and_false]
    rw [hnext]
    by_cases heq : k = consumer.lease
    · have hcounts : counts k consumer = true :=
        Bool.and_eq_true_iff.mpr ⟨decide_eq_true heq.symm, hactive⟩
      rw [if_pos heq, hcounts]
      rfl
    · have hcounts : counts k consumer = false := by
        unfold counts
        rw [decide_eq_false (Ne.symm heq), Bool.false_and]
      rw [if_neg heq, hcounts]
      rfl
  -- what does not depend on whether anybody is left
  have hshared : ∀ (left : TabLease) (table : Nat → Option Nat), left.tab = lease.tab →
      left.mode = lease.mode → left.consumers = lease.consumers - 1 →
      (left.released = true → lease.consumers - 1 = 0) →
      (∀ tab l, table tab = some l → b.tabLeases tab = some l ∧
        (l = consumer.lease → left.released = false)) →
      Shared { b with
        leases := b.leases.set consumer.lease left
        tabLeases := table
        consumers := b.consumers.set c next } := by
    intro left table htab hmode hconsumers hreleased htable
    refine ⟨fun tab k hk => ?_, fun k lease' hk => ?_, fun k lease' hk hgone => ?_,
      fun other hother => ?_, fun other hother hstage' => ?_, fun other hother hstage' => ?_,
      fun d other hother hstage' => ?_⟩
    · obtain ⟨hold, hopen⟩ := htable tab k hk
      obtain ⟨lease', hlease', htab', hreleased'⟩ := h.table tab k hold
      by_cases heq : consumer.lease = k
      · subst heq
        obtain rfl := Option.some.inj (hlease.symm.trans hlease')
        exact ⟨left, List.getElem?_set_self hin, htab.trans htab', hopen rfl⟩
      · exact ⟨lease', (List.getElem?_set_ne heq).trans hlease', htab', hreleased'⟩
    · rcases getElem?_set_cases hk with ⟨rfl, rfl⟩ | ⟨hne, hold⟩
      · have hcount := hcounted _ lease hlease
        rw [if_pos rfl] at hcount
        exact hconsumers.trans hcount
      · have hcount := hcounted k lease' hold
        rw [if_neg hne] at hcount
        exact hcount
    · rcases getElem?_set_cases hk with ⟨rfl, rfl⟩ | ⟨_, hold⟩
      · exact hconsumers.trans (hreleased hgone)
      · exact h.released k lease' hold hgone
    · show _ < (b.leases.set _ _).length
      rw [List.length_set]
      rcases List.mem_or_eq_of_mem_set hother with hother | rfl
      · exact h.known other hother
      · exact h.known consumer hmem
    · rcases List.mem_or_eq_of_mem_set hother with hother | rfl
      · obtain ⟨lease', hlease', hexclusive⟩ := h.modes other hother hstage'
        by_cases heq : consumer.lease = other.lease
        · rw [← heq, hlease] at hlease'
          obtain rfl := Option.some.inj hlease'
          rw [← heq]
          exact ⟨left, List.getElem?_set_self hin, hmode.trans hexclusive⟩
        · exact ⟨lease', (List.getElem?_set_ne heq).trans hlease', hexclusive⟩
      · exact absurd rfl (hnot _ (.inr hstage'))
    · rcases List.mem_or_eq_of_mem_set hother with hother | rfl
      · exact h.waiting other hother hstage'
      · exact absurd rfl (hnot _ hstage')
    · refine isTurn_set hfound rfl (fun _ => rfl) ?_
      rcases getElem?_set_cases hother with ⟨_, rfl⟩ | ⟨_, hold⟩
      · exact absurd hstage' (hnot _ (.inr (.inr rfl)))
      · exact h.turns d other hold hstage'
  unfold Browser.leave Browser.releaseConsumer
  split
  · next hleft =>
    refine hshared { lease with consumers := lease.consumers - 1 } b.tabLeases rfl rfl rfl ?_ ?_
    · intro hgone
      rw [h.released _ lease hlease hgone]
    · intro tab l htable
      refine ⟨htable, fun heq => ?_⟩
      obtain ⟨lease', hlease', _, hopen⟩ := h.table tab l htable
      rw [heq, hlease] at hlease'
      obtain rfl := Option.some.inj hlease'
      exact hopen
  · next hnone =>
    refine hshared { lease with consumers := lease.consumers - 1, released := true } _ rfl rfl rfl
      (fun _ => by omega) fun tab l htable => ?_
    -- the released acquisition is out of the table
    have hkept := of_unlisted htable
    refine ⟨hkept.1, fun heq => ?_⟩
    obtain ⟨lease', hlease', htab, _⟩ := h.table tab l hkept.1
    rw [heq, hlease] at hlease'
    obtain rfl := Option.some.inj hlease'
    exact absurd htab (hkept.2 heq)

theorem Shared.create (h : Shared b) (tab : Nat) (wait aborted : Bool) (mode : Mode) :
    Shared { b with
      leases := b.leases ++ [⟨tab, wait, aborted, 0, mode, false, false, false⟩]
      tabLeases := Function.update b.tabLeases tab (some b.leases.length) } where
  table tab' l htable := by
    by_cases heq : tab' = tab
    · subst heq
      change Function.update b.tabLeases tab' (some b.leases.length) tab' = some l at htable
      rw [Function.update_self] at htable
      obtain rfl := Option.some.inj htable
      exact ⟨_, List.getElem?_concat_length, rfl, rfl⟩
    · change Function.update b.tabLeases tab (some b.leases.length) tab' = some l at htable
      rw [Function.update_of_ne heq] at htable
      obtain ⟨lease, hlease, htab, hopen⟩ := h.table tab' l htable
      exact ⟨lease, getElem?_snoc_of_some hlease, htab, hopen⟩
  counted l lease hlease := by
    rcases getElem?_snoc_cases hlease with ⟨rfl, rfl⟩ | hlease
    · refine (List.countP_eq_zero.mpr fun consumer hmem hcounts => ?_).symm
      obtain ⟨hsame, _⟩ := Bool.and_eq_true_iff.mp hcounts
      exact absurd (of_decide_eq_true hsame) (Nat.ne_of_lt (h.known consumer hmem))
    · exact h.counted l lease hlease
  released l lease hlease hreleased := by
    rcases getElem?_snoc_cases hlease with ⟨_, rfl⟩ | hlease
    · rfl
    · exact h.released l lease hlease hreleased
  known consumer hmem := by
    show _ < (b.leases ++ [_]).length
    rw [List.length_append]
    exact Nat.lt_add_right _ (h.known consumer hmem)
  modes consumer hmem hstage := by
    obtain ⟨lease, hlease, hmode⟩ := h.modes consumer hmem hstage
    exact ⟨lease, getElem?_snoc_of_some hlease, hmode⟩
  waiting := h.waiting
  turns := h.turns

theorem Shared.joinTab (h : Shared b) (tab : Nat) (wait : Bool) : Shared (b.joinTab tab wait) := by
  unfold Browser.joinTab
  split
  · next l htable =>
    obtain ⟨lease, hlease, _, hopen⟩ := h.table tab l htable
    rw [hlease]
    exact h.join hlease hopen wait
  · exact h

theorem Shared.acquireLease (h : Shared b) (tab : Nat) (wait aborted : Bool) (claim : K) :
    Shared (b.acquireLease route tab wait aborted claim) := by
  unfold Browser.acquireLease
  split
  · exact h.joinTab tab wait
  · refine Shared.joinTab ?_ tab wait
    unfold Browser.createTabLease
    dsimp only
    split
    · exact (h.create tab wait aborted _).same rfl rfl fun _ _ htable => htable
    · exact h.create tab wait aborted _

theorem Shared.resume (h : Shared b) {c : Nat} {consumer : Consumer} {lease : TabLease}
    (hfound : b.consumers[c]? = some consumer) (hlease : b.leases[consumer.lease]? = some lease)
    (hstage : consumer.stage = .awaitingMode) (aborted : Bool) (claim : K) :
    Shared (b.resume route c consumer lease aborted claim) := by
  have hactive : consumer.isActive = true := by
    unfold Consumer.isActive
    rw [hstage]
  have hunfinished := h.waiting consumer (List.mem_of_getElem? hfound) (.inl hstage)
  unfold Browser.resume
  split
  · exact h
  · exact h.leave hfound hlease hactive (.inr (.inl rfl))
  · next hmode =>
    refine h.putConsumer hfound rfl ?_ (fun _ => ⟨lease, hlease, hmode⟩) (fun _ => hunfinished) id
      nofun
    exact hactive.symm
  · split
    · refine Shared.acquireLease ?_ lease.tab consumer.wait aborted claim
      refine (h.leave hfound hlease hactive (.inr (.inr rfl))).same rfl rfl fun tab l htable => ?_
      exact (of_unlisted htable).1
    · refine h.putConsumer hfound rfl (by rw [hactive]; rfl) ?_ ?_ (fun _ => rfl) nofun
      · rintro (hstage | hstage)
        · cases hstage
        · cases hstage
      · rintro (hstage | hstage | hstage)
        · cases hstage
        · cases hstage
        · cases hstage

theorem Shared.conclude (h : Shared b) {i l : Nat} {lease : TabLease} {mode : LeaseMode}
    (hlease : b.leases[l]? = some lease) (hpending : lease.mode = .pending) :
    Shared (b.conclude i l lease mode) := by
  have hset : Shared { b with claimants := b.claimants.set i ⟨l, true⟩ } :=
    h.same rfl rfl fun _ _ htable => htable
  unfold Browser.conclude
  dsimp only
  split
  · exact hset.putPending hlease hpending rfl rfl rfl
  · exact hset.putPending hlease hpending rfl rfl rfl

theorem Shared.reclaim (h : Shared b) {l : Nat} {lease : TabLease}
    (hlease : b.leases[l]? = some lease) (hpending : lease.mode = .pending) (claim : K) :
    Shared (b.reclaim l lease claim) := by
  unfold Browser.reclaim
  split
  · exact h.putPending hlease hpending rfl rfl rfl
  · have hput : Shared (b.putLease l { lease with reclaims := false }) :=
      h.putPending hlease hpending rfl rfl rfl
    exact hput.same rfl rfl fun _ _ htable => htable

/-! ## Runs -/

variable [LinearOrder K]

theorem Backed.step (h : Backed route b) (action : Action K) : Backed route (b.step route action) := by
  cases action with
  | acquireLease tab wait aborted claim => exact h.acquireLease tab wait aborted claim
  | resume c aborted claim =>
    dsimp only [Browser.step]
    split
    · split
      · next lease hlease =>
        split
        · exact h.resume hlease aborted claim
        · exact h
      · exact h
    · exact h
  | takeTurn c =>
    dsimp only [Browser.step]
    split
    · split
      · exact h.same rfl rfl rfl
      · exact h
    · exact h
  | release c =>
    dsimp only [Browser.step]
    split
    · split
      · next hlease => exact h.leave hlease
      · exact h
    · exact h
  | abort l =>
    dsimp only [Browser.step]
    split
    · next hlease => exact h.touch hlease id rfl id
    · exact h
  | grant l =>
    dsimp only [Browser.step]
    split
    · next hlease =>
      split
      · next hgrants =>
        exact h.putLease hlease id (fun _ => .inr hgrants.2.2) fun _ => .inr (.inl ⟨hgrants.1, rfl⟩)
      · exact h
    · exact h
  | refuse l =>
    dsimp only [Browser.step]
    split
    · next hlease =>
      split
      · exact h.touch hlease id rfl nofun
      · exact h
    · exact h
  | rejectAborted l =>
    dsimp only [Browser.step]
    split
    · next hlease =>
      split
      · exact h.touch hlease id rfl nofun
      · exact h
    · exact h
  | unlock l =>
    dsimp only [Browser.step]
    split
    · next hlease =>
      split
      · next hreleased =>
        refine h.putLease hlease id nofun fun hexclusive => ?_
        rw [show _ = false from hexclusive.2] at hreleased
        cases hreleased
      · exact h
    · exact h
  | deliver k => exact h.evolves (h.ordered.deliver k) (evolves_deliver _ k)
  | timer i => exact h.evolves (h.ordered.timer i) (evolves_timer _ i)
  | close i =>
    dsimp only [Browser.step]
    split
    · next hclaimant _ =>
      split
      · next hlease =>
        split
        · next hcloses => exact h.close hclaimant hlease hcloses.2
        · exact h
      · exact h
    · exact h
  | conclude i =>
    dsimp only [Browser.step]
    split
    · next hclaimant hattempt =>
      split
      · next hout hlease =>
        split
        · next hconcludes => exact h.conclude hconcludes.1 hclaimant hattempt hout hlease
        · exact h
      · exact h
    · exact h
  | reclaim l claim =>
    dsimp only [Browser.step]
    split
    · next hlease =>
      split
      · exact h.reclaim hlease claim
      · exact h
    · exact h

theorem Shared.step (h : Shared b) (action : Action K) : Shared (b.step route action) := by
  cases action with
  | acquireLease tab wait aborted claim => exact h.acquireLease tab wait aborted claim
  | resume c aborted claim =>
    dsimp only [Browser.step]
    split
    · next consumer hfound =>
      split
      · next lease hlease =>
        split
        · next hstage => exact h.resume hfound hlease hstage aborted claim
        · exact h
      · exact h
    · exact h
  | takeTurn c =>
    dsimp only [Browser.step]
    split
    · next consumer hfound =>
      split
      · next hturn =>
        obtain ⟨hstage, hturn⟩ := hturn
        have hmem := List.mem_of_getElem? hfound
        refine h.putConsumer hfound rfl ?_ (fun _ => h.modes consumer hmem (.inl hstage))
          (fun _ => h.waiting consumer hmem (.inr (.inl hstage))) id fun _ => hturn
        unfold Consumer.isActive
        rw [hstage]
      · exact h
    · exact h
  | release c =>
    dsimp only [Browser.step]
    split
    · next consumer hfound =>
      split
      · next hstage hlease =>
        refine h.leave hfound hlease ?_ (.inl rfl)
        unfold Consumer.isActive
        rw [hstage]
      · exact h
    · exact h
  | abort l =>
    dsimp only [Browser.step]
    split
    · next hlease => exact h.putLease hlease rfl rfl rfl id
    · exact h
  | grant l =>
    dsimp only [Browser.step]
    split
    · next hlease =>
      split
      · exact h.putLease hlease rfl rfl rfl fun _ => rfl
      · exact h
    · exact h
  | refuse l =>
    dsimp only [Browser.step]
    split
    · next lease hlease =>
      split
      · next hrefuses => exact h.putPending hlease hrefuses.2.1 rfl rfl rfl
      · exact h
    · exact h
  | rejectAborted l =>
    dsimp only [Browser.step]
    split
    · next hlease =>
      split
      · next hrejects => exact h.putPending hlease hrejects.2.1 rfl rfl rfl
      · exact h
    · exact h
  | unlock l =>
    dsimp only [Browser.step]
    split
    · next hlease =>
      split
      · exact h.putLease hlease rfl rfl rfl id
      · exact h
    · exact h
  | deliver k => exact h.same rfl rfl fun _ _ htable => htable
  | timer i => exact h.same rfl rfl fun _ _ htable => htable
  | close i =>
    dsimp only [Browser.step]
    split
    · split
      · split
        · exact h.same rfl rfl fun _ _ htable => htable
        · exact h
      · exact h
    · exact h
  | conclude i =>
    dsimp only [Browser.step]
    split
    · split
      · next hlease =>
        split
        · next hconcludes =>
          exact h.conclude hlease hconcludes.2.2
        · exact h
      · exact h
    · exact h
  | reclaim l claim =>
    dsimp only [Browser.step]
    split
    · next hlease =>
      split
      · next hreclaims =>
        exact h.reclaim hlease hreclaims.2.2 claim
      · exact h
    · exact h

theorem backed_of_run (run : Run route b) : Backed route b := by
  induction run with
  | empty =>
    constructor
    · exact .empty
    · rfl
    · intro claimant hmem
      cases hmem
    · intro i claimant attempt lease hclaimant
      cases hclaimant
    · intro l l' lease lease' hlease
      cases hlease
    · intro l lease hlease
      cases hlease
  | step run action ih => exact ih.step action

theorem shared_of_run (run : Run route b) : Shared b := by
  induction run with
  | empty =>
    constructor
    · intro tab l htable
      cases htable
    · intro l lease hlease
      cases hlease
    · intro l lease hlease
      cases hlease
    · intro consumer hmem
      cases hmem
    · intro consumer hmem
      cases hmem
    · intro consumer hmem
      cases hmem
    · intro c consumer hconsumer
      cases hconsumer
  | step run action ih => exact ih.step action

/-- At most one consumer over all tabs holds the exclusive lease of a graph. -/
theorem holder_unique_of_run (run : Run route b) {c d : Nat} (hc : HoldsExclusive b c)
    (hd : HoldsExclusive b d) : c = d :=
  holder_unique (backed_of_run run) (shared_of_run run) hc hd

/-- Two tabs that claim at once, the second with the smaller claim. -/
def rivals : List (Action Nat) :=
  [.acquireLease 0 false false 7, .acquireLease 1 false false 3, .deliver 0, .timer 1, .conclude 1,
    .resume 1 false 0, .takeTurn 1]

theorem run_of_rivals (actions : List (Action Nat)) {b : Browser Nat} (run : Run route b) :
    Run route (actions.foldl (Browser.step route) b) := by
  induction actions generalizing b with
  | nil => exact run
  | cons action actions ih => exact ih (run.step action)

theorem holder_unique_of_run_rivals :
    HoldsExclusive (rivals.foldl (Browser.step .elected) .empty) 1 ∧
      ¬ HoldsExclusive (rivals.foldl (Browser.step .elected) .empty) 0 := by
  have hholds : HoldsExclusive (rivals.foldl (Browser.step .elected) .empty) 1 :=
    ⟨⟨1, false, .holding .exclusive, false⟩, by decide +kernel, rfl⟩
  refine ⟨hholds, fun hother => ?_⟩
  cases holder_unique_of_run (run_of_rivals rivals .empty) hother hholds

end Neoseq.Lease
