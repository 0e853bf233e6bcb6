import BitTorrent.Tracker.Announce

/-! Kept queries. Requests that are set, asked and cloned in any order answer as if every query were
built when it is asked for, from the fields as they then are. -/

namespace BitTorrent.Tracker

/-! ### Calls -/

/-- A call on one request. -/
inductive Call where
  | set (c : Change)
  | query
  | url (base : String)

/-- The text that a call answers, if it answers one, and the request after it. -/
def Request.call (r : Request) : Call → Option String × Request
  | .set c => (none, r.set c)
  | .query => (some r.query.1, r.query.2)
  | .url base => (some (r.url base).1, (r.url base).2)

/-- An announce URL with the query that the fields make. -/
def Announce.url (a : Announce) (base : String) : String :=
  base ++ (if '?' ∈ base.toList then "&" else "?") ++ a.query

/-- The same calls where nothing is kept: whatever is asked for is built from the fields. -/
def Announce.call (a : Announce) : Call → Option String × Announce
  | .set c => (none, c.apply a)
  | .query => (some a.query, a)
  | .url base => (some (a.url base), a)

/-! ### Objects -/

/-- Objects have numbers. A clone is a copy of an object as it is, and has the next number. -/
inductive Turn where
  | call (k : Nat) (c : Call)
  | clone (k : Nat)

/-- Whether the turn is a call on object `k`. -/
def Turn.Calls (k : Nat) : Turn → Prop
  | .call j _ => j = k
  | .clone _ => False

section Objects

variable {α : Type} (call : α → Call → Option String × α)

/-- What a turn answers, and the objects after it. A number that no object has does nothing. -/
def step (objects : List α) : Turn → Option String × List α
  | .call k c =>
    match objects[k]? with
    | none => (none, objects)
    | some x => ((call x c).1, objects.set k (call x c).2)
  | .clone k => (none, objects ++ objects[k]?.toList)

def run (objects : List α) : List Turn → List (Option String) × List α
  | [] => ([], objects)
  | t :: turns =>
    let (text, objects) := step call objects t
    let (texts, objects) := run objects turns
    (text :: texts, objects)

variable {call}

theorem length_le_step (objects : List α) (t : Turn) :
    objects.length ≤ (step call objects t).2.length := by
  cases t with
  | call k c =>
    simp only [step]
    split
    · exact Nat.le_refl _
    · exact Nat.le_of_eq List.length_set.symm
  | clone k =>
    rw [step, List.length_append]
    exact Nat.le_add_right _ _

/-- Only a call on an object changes it; a clone leaves the original as it is, and is not changed
with it. -/
theorem getElem?_step {objects : List α} {t : Turn} {k : Nat} (hk : k < objects.length)
    (h : ¬t.Calls k) : (step call objects t).2[k]? = objects[k]? := by
  cases t with
  | call j c =>
    simp only [step]
    split
    · rfl
    · exact List.getElem?_set_ne h
  | clone j => exact List.getElem?_append_left hk

theorem getElem?_run {objects : List α} {turns : List Turn} {k : Nat} (hk : k < objects.length)
    (h : ∀ t ∈ turns, ¬t.Calls k) : (run call objects turns).2[k]? = objects[k]? := by
  induction turns generalizing objects with
  | nil => rfl
  | cons t turns ih =>
    obtain ⟨ht, hturns⟩ := List.forall_mem_cons.mp h
    have hlength : objects.length ≤ (step call objects t).2.length := length_le_step objects t
    simp only [run]
    rw [ih (by omega) hturns, getElem?_step hk ht]

end Objects

/-! ### What is kept -/

/-- What is kept is the query that the fields make now. -/
def Request.Fresh (r : Request) : Prop := ∀ q, r.kept = some q → q = r.announce.query

namespace Request

variable {r : Request}

theorem fresh_of_mem_new {infoHash : InfoHash} {peerId : PeerId} (h : r ∈ [new infoHash peerId]) :
    r.Fresh := by
  intro q hq
  rw [List.mem_singleton.mp h] at hq
  cases hq

theorem fresh_kept (r : Request) : Fresh { r with kept := some r.announce.query } := by
  intro q hq
  exact (Option.some.inj hq).symm

theorem Fresh.query_eq (h : r.Fresh) :
    r.query = (r.announce.query, { r with kept := some r.announce.query }) := by
  obtain ⟨a, kept⟩ := r
  cases kept with
  | none => rfl
  | some q =>
    have hq : q = a.query := h q rfl
    subst hq
    rfl

theorem Fresh.fst_query (h : r.Fresh) : r.query.1 = r.announce.query := by
  rw [h.query_eq]

theorem Fresh.url_eq (h : r.Fresh) (base : String) :
    r.url base = (r.announce.url base, { r with kept := some r.announce.query }) := by
  rw [url, h.query_eq]
  rfl

/-- A call answers what it would answer if nothing were kept, and leaves the fields as it would
leave them. -/
theorem Fresh.call (h : r.Fresh) (c : Call) :
    (r.call c).1 = (r.announce.call c).1 ∧ (r.call c).2.announce = (r.announce.call c).2 ∧
      (r.call c).2.Fresh := by
  cases c with
  | set c =>
    refine ⟨rfl, rfl, ?_⟩
    intro q hq
    cases hq
  | query =>
    have hcall : r.call .query =
        (some r.announce.query, { r with kept := some r.announce.query }) := by
      simp only [Request.call, h.query_eq]
    rw [hcall]
    exact ⟨rfl, rfl, fresh_kept r⟩
  | url base =>
    have hcall : r.call (.url base) =
        (some (r.announce.url base), { r with kept := some r.announce.query }) := by
      simp only [Request.call, h.url_eq]
    rw [hcall]
    exact ⟨rfl, rfl, fresh_kept r⟩

end Request

/-! ### Runs -/

theorem step_of_fresh {rs : List Request} (h : ∀ r ∈ rs, r.Fresh) (t : Turn) :
    (step Request.call rs t).1 = (step Announce.call (rs.map Request.announce) t).1 ∧
      (step Request.call rs t).2.map Request.announce =
        (step Announce.call (rs.map Request.announce) t).2 ∧
      ∀ r ∈ (step Request.call rs t).2, r.Fresh := by
  cases t with
  | call k c =>
    simp only [step, List.getElem?_map]
    cases hk : rs[k]? with
    | none => exact ⟨rfl, rfl, h⟩
    | some r =>
      obtain ⟨htext, hfields, hfresh⟩ := (h r (List.mem_of_getElem? hk)).call c
      refine ⟨htext, ?_, ?_⟩
      · rw [List.map_set, hfields]
        rfl
      · intro r' hr'
        rcases List.mem_or_eq_of_mem_set hr' with hr' | rfl
        · exact h r' hr'
        · exact hfresh
  | clone k =>
    refine ⟨rfl, ?_, ?_⟩
    · simp only [step, List.map_append, List.getElem?_map]
      cases rs[k]? <;> rfl
    · intro r hr
      rcases List.mem_append.mp hr with hr | hr
      · exact h r hr
      · rw [Option.mem_toList] at hr
        exact h r (List.mem_of_getElem? hr)

/-- By induction on the turns, with any fresh requests to begin with. -/
theorem run_of_fresh {rs : List Request} (h : ∀ r ∈ rs, r.Fresh) (turns : List Turn) :
    (run Request.call rs turns).1 = (run Announce.call (rs.map Request.announce) turns).1 ∧
      (run Request.call rs turns).2.map Request.announce =
        (run Announce.call (rs.map Request.announce) turns).2 ∧
      ∀ r ∈ (run Request.call rs turns).2, r.Fresh := by
  induction turns generalizing rs with
  | nil => exact ⟨rfl, rfl, h⟩
  | cons t turns ih =>
    obtain ⟨htext, hfields, hfresh⟩ := step_of_fresh h t
    obtain ⟨htexts, hrest, hall⟩ := ih hfresh
    simp only [run]
    rw [← htext, ← hfields]
    exact ⟨congrArg _ htexts, hrest, hall⟩

theorem Request.fresh_of_mem_run {infoHash : InfoHash} {peerId : PeerId} {turns : List Turn}
    {r : Request} (h : r ∈ (run Request.call [.new infoHash peerId] turns).2) : r.Fresh :=
  (run_of_fresh (fun _ => Request.fresh_of_mem_new) turns).2.2 r h

/-- However requests are set, asked and cloned, every text is the one that is built from the fields
as they then are. So requests with the same fields answer the same query, whatever was done to
them, and what is done to the others, clones or not, does not change a request. -/
theorem run_answers_afresh (infoHash : InfoHash) (peerId : PeerId) (turns : List Turn) :
    let rs := (run Request.call [.new infoHash peerId] turns).2
    (run Request.call [.new infoHash peerId] turns).1 =
      (run Announce.call [.initial infoHash peerId] turns).1 ∧
    rs.map Request.announce = (run Announce.call [.initial infoHash peerId] turns).2 ∧
    (∀ r ∈ rs, r.query.1 = r.announce.query ∧ ∀ base, (r.url base).1 = r.announce.url base) ∧
    (∀ infoHash' peerId' turns', ∀ r ∈ rs,
      ∀ r' ∈ (run Request.call [.new infoHash' peerId'] turns').2,
      r.announce = r'.announce → r.query.1 = r'.query.1) ∧
    ∀ k < rs.length, ∀ later : List Turn, (∀ t ∈ later, ¬t.Calls k) →
      (run Request.call rs later).2[k]? = rs[k]? := by
  intro rs
  have hnew : ∀ r ∈ [Request.new infoHash peerId], r.Fresh := fun _ => Request.fresh_of_mem_new
  obtain ⟨htexts, hfields, -⟩ := run_of_fresh hnew turns
  refine ⟨htexts, hfields, ?_, ?_, ?_⟩
  · intro r hr
    have h := Request.fresh_of_mem_run hr
    exact ⟨h.fst_query, fun base => by rw [h.url_eq]⟩
  · intro infoHash' peerId' turns' r hr r' hr' hsame
    rw [(Request.fresh_of_mem_run hr).fst_query, (Request.fresh_of_mem_run hr').fst_query, hsame]
  · intro k hk later hlater
    exact getElem?_run hk hlater

/-- A request is asked, cloned and asked again after the clone has been set. -/
theorem run_answers_afresh_of_clone :
    let turns : List Turn := [.call 0 .query, .clone 0, .call 1 (.set (.left 7)), .call 1 .query]
    let a : Announce := .initial ⟨.zero 20⟩ ⟨.zero 20⟩
    let rs := (run Request.call [.new ⟨.zero 20⟩ ⟨.zero 20⟩] turns).2
    (run Request.call [.new ⟨.zero 20⟩ ⟨.zero 20⟩] turns).1 =
        [some a.query, none, none, some { a with left := 7 }.query] ∧
      rs.map Request.announce = [a, { a with left := 7 }] ∧
      (∀ r ∈ rs, r.query.1 = r.announce.query) ∧
      (run Request.call rs [.call 1 (.set (.compact true)), .clone 0]).2[0]? = rs[0]? := by
  intro turns a rs
  obtain ⟨htexts, hfields, hafresh, -, hothers⟩ := run_answers_afresh ⟨.zero 20⟩ ⟨.zero 20⟩ turns
  have hzero : 0 < rs.length := by
    rw [← List.length_map (f := Request.announce), hfields]
    decide
  refine ⟨htexts.trans rfl, hfields.trans rfl, fun r hr => (hafresh r hr).1, ?_⟩
  apply hothers 0 hzero
  simp [Turn.Calls]

end BitTorrent.Tracker
