import BitTorrent.Bencode.ByOffset.Run
import BitTorrent.Proofs.Except

/-! Runs that end without a trap. A run with a value has left each container that it entered, so
what it records is nested. `Run.Ends` has one rule for each way to put runs together, and one for
each step that may be trapped. -/

namespace BitTorrent.Bencode.ByOffset

variable {α β σ : Type}

/-- Every container that is entered is left, and the ones inside of it before. -/
inductive Nested : List Event → Prop
  | nil : Nested []
  | turned (pos next limit : Nat) {es : List Event} : Nested es →
      Nested (.turned pos next limit :: es)
  | container (start stop depth pos : Nat) {inner es : List Event} : Nested inner → Nested es →
      Nested (.entered start stop depth :: (inner ++ .left pos stop :: es))

/-- What a run with the result `r` records: good events, and if there is a value no container is
left open. -/
structure Recorded (good : Event → Prop) (r : Except Error α) (events : List Event) : Prop where
  good : ∀ e ∈ events, good e
  nested : ∀ a, r = .ok a → Nested events

/-- The run ends without a trap, its result is as `post` says, and it records what it should. -/
def Run.Ends (good : Event → Prop) (m : Run α) (post : Except Error α → Prop) : Prop :=
  ∀ log, ∃ r events, m.exec log = (r.mapError .refused, log ++ events) ∧ post r ∧
    Recorded good r events

/-- The run ends without a trap with this result. -/
def Run.Gives (good : Event → Prop) (m : Run α) (x : Except Error α) : Prop :=
  m.Ends good (· = x)

section Rules

variable {good : Event → Prop} {m : Run α} {f : α → Run β}

theorem Nested.append {ds es : List Event} (hd : Nested ds) (he : Nested es) :
    Nested (ds ++ es) := by
  induction hd with
  | nil => exact he
  | turned pos next limit _ ih => exact .turned pos next limit ih
  | container start stop depth pos hinner _ _ ih =>
    rw [List.cons_append, List.append_assoc, List.cons_append]
    exact .container start stop depth pos hinner ih

theorem recorded_nil (r : Except Error α) : Recorded good r [] := ⟨nofun, fun _ _ => .nil⟩

theorem Recorded.append {a : α} {r : Except Error β} {ds es : List Event}
    (hd : Recorded good (Except.ok a : Except Error α) ds) (he : Recorded good r es) :
    Recorded good r (ds ++ es) where
  good e h := (List.mem_append.mp h).elim (hd.good e) (he.good e)
  nested b hb := (hd.nested a rfl).append (he.nested b hb)

theorem Run.exec_bind (m : Run α) (f : α → Run β) (log : List Event) :
    (m >>= f).exec log = match m.exec log with
      | (.ok a, log') => (f a).exec log'
      | (.error e, log') => (.error e, log') := by
  rw [exec, ExceptT.run_bind, StateT.run_bind, ← exec]
  obtain ⟨r, log'⟩ := m.exec log
  cases r <;> rfl

namespace Run

theorem Ends.mono {post post' : Except Error α → Prop} (h : m.Ends good post)
    (hpost : ∀ r, post r → post' r) : m.Ends good post' := by
  intro log
  obtain ⟨r, events, hexec, hr, hrec⟩ := h log
  exact ⟨r, events, hexec, hpost r hr, hrec⟩

theorem Ends.bind {post : Except Error α → Prop} {post' : Except Error β → Prop}
    (hm : m.Ends good post) (hok : ∀ a, post (.ok a) → (f a).Ends good post')
    (herror : ∀ e, post (.error e) → post' (.error e)) : (m >>= f).Ends good post' := by
  intro log
  obtain ⟨r, events, hexec, hr, hrec⟩ := hm log
  cases r with
  | error e =>
    exact ⟨.error e, events, by rw [exec_bind, hexec]; rfl, herror e hr, hrec.good, nofun⟩
  | ok a =>
    obtain ⟨r', events', hexec', hr', hrec'⟩ := hok a hr (log ++ events)
    refine ⟨r', events ++ events', ?_, hr', hrec.append hrec'⟩
    rw [exec_bind, hexec]
    exact hexec'.trans (by rw [List.append_assoc])

theorem Gives.ends {x : Except Error α} {post : Except Error α → Prop} (h : m.Gives good x)
    (hx : post x) : m.Ends good post :=
  h.mono fun _ hr => hr ▸ hx

theorem Gives.bind {x : Except Error α} {g : α → Except Error β} (hm : m.Gives good x)
    (hf : ∀ a, x = .ok a → (f a).Gives good (g a)) : (m >>= f).Gives good (x >>= g) := by
  refine Ends.bind hm (fun a ha => ?_) fun e he => ?_
  · rw [← ha, ok_bind]
    exact hf a ha.symm
  · rw [← he, error_bind]

/-- Of a result that is told in other terms. -/
theorem Gives.map_bind {γ : Type} {y : Except Error γ} {h : γ → α} {g : γ → Except Error β}
    (hm : m.Gives good (h <$> y)) (hf : ∀ c, y = .ok c → (f (h c)).Gives good (g c)) :
    (m >>= f).Gives good (y >>= g) := by
  cases y with
  | error e => exact hm.bind (g := fun _ => .error e) nofun
  | ok c =>
    refine hm.bind (g := fun _ => g c) fun a ha => ?_
    cases ha
    exact hf c rfl

theorem Gives.ok_bind {a : α} {post : Except Error β → Prop} (hm : m.Gives good (.ok a))
    (hf : (f a).Ends good post) : (m >>= f).Ends good post := by
  refine Ends.bind hm (fun b hb => ?_) nofun
  cases hb
  exact hf

theorem Gives.error_bind {e : Error} (hm : m.Gives good (.error e)) :
    (m >>= f).Gives good (.error e) :=
  hm.bind (g := fun _ => .error e) nofun

end Run

/-! ### Rules for the steps -/

theorem gives_pure (a : α) : (pure a : Run α).Gives good (.ok a) :=
  fun log => ⟨.ok a, [], by rw [List.append_nil]; rfl, rfl, recorded_nil _⟩

theorem gives_refuse (e : Error) : (refuse e : Run α).Gives good (.error e) :=
  fun log => ⟨.error e, [], by rw [List.append_nil]; rfl, rfl, recorded_nil _⟩

theorem gives_turned {pos next limit : Nat} (h : good (.turned pos next limit)) :
    (record (.turned pos next limit)).Gives good (.ok ()) :=
  fun log => ⟨.ok (), [.turned pos next limit], rfl, rfl, by simpa using h,
    fun _ _ => .turned pos next limit .nil⟩

theorem gives_add {a b : Nat} (h : a + b < 2 ^ 64) : (add a b).Gives good (.ok (a + b)) := by
  have h : a + b < UInt64.size := h
  rw [add, if_pos h]
  exact gives_pure (a + b)

theorem gives_sub {a b : Nat} (h : b ≤ a) : (sub a b).Gives good (.ok (a - b)) := by
  rw [sub, if_pos h]
  exact gives_pure (a - b)

theorem gives_index {data : Bytes} {i : Nat} {b : UInt8} (h : data[i]? = some b) :
    (index data i).Gives good (.ok b) := by
  rw [index, h]
  exact gives_pure b

theorem gives_slice {data : Bytes} {start stop : Nat} (hstart : start ≤ stop)
    (hstop : stop ≤ data.length) :
    (slice data start stop).Gives good (.ok ((data.drop start).take (stop - start))) := by
  rw [slice, if_pos ⟨hstart, hstop⟩]
  exact gives_pure _

/-! ### The rule for containers -/

/-- The loop over what is in a container must end where the container does. -/
theorem gives_enclosed {start stop depth : Nat} {m : Run (α × Nat)} {x : Except Error α}
    (hentered : good (.entered start stop depth)) (hleft : good (.left stop stop))
    (hm : m.Gives good ((·, stop) <$> x)) : (enclosed start stop depth m).Gives good x := by
  intro log
  obtain ⟨r, events, hexec, rfl, hrec⟩ := hm (log ++ [.entered start stop depth])
  have hrun : (enclosed start stop depth m).exec log = (do
      let r ← m
      record (.left r.2 stop)
      return r.1 : Run α).exec (log ++ [.entered start stop depth]) := rfl
  cases x with
  | error e =>
    refine ⟨.error e, .entered start stop depth :: events, ?_, rfl, ?_, nofun⟩
    · rw [hrun, Run.exec_bind, hexec]
      simp
    · exact List.forall_mem_cons.mpr ⟨hentered, hrec.good⟩
  | ok a =>
    refine ⟨.ok a, .entered start stop depth :: (events ++ [.left stop stop]), ?_, rfl, ?_, ?_⟩
    · rw [hrun, Run.exec_bind, hexec]
      show (Except.ok a, (log ++ [.entered start stop depth] ++ events) ++ [.left stop stop]) = _
      simp
    · simpa [hentered, hleft, or_imp, forall_and] using hrec.good
    · exact fun _ _ => .container start stop depth stop (hrec.nested _ rfl) .nil

/-! ### The rule for loops -/

/-- What one turn from `s` comes to: a value that is the answer, the refusal that is the answer,
or a state that has the same answer. -/
inductive Turned (answer : σ → Except Error α) (goesOn : σ → Prop) (s : σ) :
    Except Error (α ⊕ σ) → Prop
  | done {a : α} : answer s = .ok a → Turned answer goesOn s (.ok (.inl a))
  | on {next : σ} : answer s = answer next → goesOn next → Turned answer goesOn s (.ok (.inr next))
  | refused {e : Error} : answer s = .error e → Turned answer goesOn s (.error e)

/-- A loop whose turns keep the answer and an invariant, and move the offset on within the limit,
ends with the answer. -/
theorem gives_loop {limit : Nat} {offset : σ → Nat} {turn : σ → Run (α ⊕ σ)}
    (answer : σ → Except Error α) (inv : σ → Prop)
    (hgood : ∀ pos next, pos < next → next ≤ limit → good (.turned pos next limit))
    (hturn : ∀ s, inv s → (turn s).Ends good
      (Turned answer (fun next => inv next ∧ offset s < offset next ∧ offset next ≤ limit) s))
    {s : σ} (hs : inv s) : (loop limit offset turn s).Gives good (answer s) := by
  induction hleft : limit - offset s using Nat.strongRecOn generalizing s with
  | _ n ih =>
    rw [loop]
    refine (hturn s hs).bind (fun r hr => ?_) fun e he => ?_
    · cases hr with
      | done h =>
        rw [h]
        exact gives_pure _
      | on hsame hnext =>
        rename_i next
        obtain ⟨hinv, hlt, hle⟩ := hnext
        refine (gives_turned (hgood _ _ hlt hle)).ok_bind ?_
        rw [if_pos ⟨hlt, hle⟩, hsame]
        exact ih (limit - offset next) (by omega) hinv rfl
    · cases he with
      | refused h => exact h.symm

end Rules

end BitTorrent.Bencode.ByOffset
