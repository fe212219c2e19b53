import TizenClaw.PipelineExecutor
import TizenClaw.SafetyChecks

/-! The configuration of the safety guard: what the two files set, also when a value in them is of
another type and the loading stops there. -/
namespace SafetyConfig

open ByteString JsonValue SafetyChecks
open PipelineExecutor (getInt)

section Loading

variable {σ α : Type}

/-- A loop up to the first element that throws, which tells with `false`. -/
def each (f : σ → α → σ × Bool) : σ → List α → σ × Bool
  | s, [] => (s, true)
  | s, a :: l =>
    let r := f s a
    if r.2 then each f r.1 l else r

def andThen (r : σ × Bool) (f : σ → σ × Bool) : σ × Bool := if r.2 then f r.1 else r

theorem each_invariant {P : σ → Prop} {f : σ → α → σ × Bool} (hf : ∀ s a, P s → P (f s a).1) {s : σ}
    (h : P s) (l : List α) : P (each f s l).1 := by
  induction l generalizing s with
  | nil => exact h
  | cons a l ih =>
    rw [each]
    split_ifs
    · exact ih (hf s a h)
    · exact hf s a h

theorem andThen_invariant {P : σ → Prop} {r : σ × Bool} {f : σ → σ × Bool} (h : P r.1)
    (hf : ∀ s, P s → P (f s).1) : P (andThen r f).1 := by
  unfold andThen
  split_ifs
  · exact hf _ h
  · exact h

end Loading

section Files

variable (num : NumericLibrary) (truncate : NumberText → ℤ)

/-- `get<double>()` -/
def getDouble : Json → Except JsonException Double
  | .int i => .ok (num.ofInt i)
  | .float t => .ok (num.ofFloat t)
  | _ => .error (.typeError 302)

def readBound (defaultDescription : Bytes) (p : Json) : Except JsonException SafetyBound :=
  (p.valueString (bytes "param") []).bind fun paramName =>
  (p.value (getDouble num) (bytes "min") (.finite 0)).bind fun minValue =>
  (p.value (getDouble num) (bytes "max") (.finite 0)).bind fun maxValue =>
  (p.valueString (bytes "unit") []).bind fun unit =>
  (p.valueString (bytes "description") defaultDescription).map fun description =>
    ⟨paramName, minValue, maxValue, unit, description⟩

/-- The members of an object that is a member. -/
def objectMembers (j : Json) (key : Bytes) : List (Bytes × Json) :=
  match j.member? key with
  | some (.obj m) => m
  | _ => []

/-- The strings in an array that is a member. -/
def stringMembers (j : Json) (key : Bytes) : List Bytes :=
  match j.member? key with
  | some (.arr l) => l.filterMap fun
    | .str s => some s
    | _ => none
  | _ => []

def boundsOf (g : SafetyGuard) (tool : Bytes) : List SafetyBound := (g.bounds.lookup tool).getD []

/-- `bounds_[tool] = ...` -/
def setBounds (g : SafetyGuard) (tool : Bytes) (bounds : List SafetyBound) : SafetyGuard :=
  { g with bounds := (tool, bounds) :: g.bounds }

/-- The bounds of a tool are read as a whole before they are set. -/
def loadToolBounds (g : SafetyGuard) (x : Bytes × Json) : SafetyGuard × Bool :=
  match x.2 with
  | .arr params => match params.mapM (readBound num []) with
    | .error _ => (g, false)
    | .ok bounds =>
      let named := bounds.filter fun b => b.paramName ≠ []
      (if named = [] then g else setBounds g x.1 named, true)
  | _ => (g, true)

def loadRateRule (g : SafetyGuard) (x : Bytes × Json) : SafetyGuard × Bool :=
  match (x.2.value (getInt truncate) (bytes "max_calls") 5).bind fun maxCalls =>
      (x.2.value (getInt truncate) (bytes "window_seconds") 60).map fun windowSeconds =>
        (⟨maxCalls, windowSeconds⟩ : ActionRateRule) with
  | .error _ => (g, false)
  | .ok rule => ({ g with rateRules := (x.1, rule) :: g.rateRules }, true)

def loadToolLists (g : SafetyGuard) (j : Json) : SafetyGuard :=
  let restricted := (Json.obj (objectMembers j (bytes "restricted_tools")))
  { g with
    confirmationTools :=
      g.confirmationTools ++ stringMembers j (bytes "confirmation_required")
    childRestrictedTools := g.childRestrictedTools ++ stringMembers restricted (bytes "child")
    guestRestrictedTools := g.guestRestrictedTools ++ stringMembers restricted (bytes "guest") }

/-- `LoadConfig` of a file that may be missing or no JSON. -/
def loadConfig (g : SafetyGuard) : Option Json → SafetyGuard × Bool
  | none => (g, false)
  | some j =>
    andThen (andThen (each (loadToolBounds num) g (objectMembers j (bytes "bounds"))) fun g =>
      each (loadRateRule truncate) g (objectMembers j (bytes "rate_limits"))) fun g =>
        (loadToolLists g j, true)

/-- A bound of the device is added to those that the tool has. -/
def addDeviceBound (tool : Bytes) (g : SafetyGuard) (p : Json) : SafetyGuard × Bool :=
  match readBound num (bytes "device-specific bound") p with
  | .error _ => (g, false)
  | .ok b =>
    (if b.paramName = [] then g else setBounds g tool (boundsOf g tool ++ [b]), true)

def addDeviceBounds (g : SafetyGuard) (x : Bytes × Json) : SafetyGuard × Bool :=
  match x.2 with
  | .arr params => each (addDeviceBound num x.1) g params
  | _ => (g, true)

/-- `LoadDeviceProfile` -/
def loadDeviceProfile (g : SafetyGuard) : Option Json → SafetyGuard × Bool
  | none => (g, false)
  | some j => match j.valueString (bytes "device_type") (bytes "generic") with
    | .error _ => (g, false)
    | .ok deviceType =>
      let excluded := g.deviceProfile.excludedTools ++ stringMembers j (bytes "excluded_tools")
      each (addDeviceBounds num) { g with deviceProfile := ⟨deviceType, excluded⟩ }
        (objectMembers j (bytes "safety_bounds"))

/-- The guard after both files. -/
def loaded (config device : Option Json) : SafetyGuard :=
  (loadDeviceProfile num (loadConfig num truncate {} config).1 device).1

end Files

section Bounds

/-- The numbers of JSON are finite. -/
structure FiniteNumbers (num : NumericLibrary) : Prop where
  ofInt : ∀ i, ∃ q, num.ofInt i = .finite q
  ofFloat : ∀ t, ∃ q, num.ofFloat t = .finite q

structure SafetyBoundFinite (b : SafetyBound) : Prop where
  min : ∃ q, b.minValue = .finite q
  max : ∃ q, b.maxValue = .finite q

def FiniteBounds (g : SafetyGuard) : Prop := ∀ tool, ∀ b ∈ boundsOf g tool, SafetyBoundFinite b

variable {num : NumericLibrary} {truncate : NumberText → ℤ} {g : SafetyGuard}

theorem getDouble_finite (hnum : FiniteNumbers num) {j : Json} {d : Double}
    (h : getDouble num j = .ok d) : ∃ q, d = .finite q := by
  cases j with
  | int i =>
    obtain rfl := Except.ok.inj h
    exact hnum.ofInt i
  | float t =>
    obtain rfl := Except.ok.inj h
    exact hnum.ofFloat t
  | _ => cases h

theorem value_finite (hnum : FiniteNumbers num) {j : Json} {key : Bytes} {d : Double}
    (h : j.value (getDouble num) key (.finite 0) = .ok d) : ∃ q, d = .finite q := by
  cases j with
  | obj m =>
    simp only [Json.value] at h
    split at h
    · exact ⟨0, (Except.ok.inj h).symm⟩
    · exact getDouble_finite hnum h
  | _ => cases h

theorem readBound_finite (hnum : FiniteNumbers num) {text : Bytes} {p : Json} {b : SafetyBound}
    (h : readBound num text p = .ok b) : SafetyBoundFinite b := by
  obtain ⟨paramName, -, h⟩ := bind_eq_ok.mp h
  obtain ⟨minValue, hmin, h⟩ := bind_eq_ok.mp h
  obtain ⟨maxValue, hmax, h⟩ := bind_eq_ok.mp h
  obtain ⟨unit, -, h⟩ := bind_eq_ok.mp h
  obtain ⟨description, -, rfl⟩ := map_eq_ok.mp h
  exact ⟨value_finite hnum hmin, value_finite hnum hmax⟩

theorem mem_of_mapM {ε α β : Type} {f : α → Except ε β} {l : List α} {m : List β} {b : β}
    (h : l.mapM f = .ok m) (hb : b ∈ m) : ∃ a ∈ l, f a = .ok b := by
  induction l generalizing m with
  | nil =>
    obtain rfl := Except.ok.inj h
    cases hb
  | cons a l ih =>
    obtain ⟨c, m', ha, hl, rfl⟩ := mapM_cons_ok.mp h
    rcases List.mem_cons.mp hb with rfl | hb
    · exact ⟨a, List.mem_cons_self, ha⟩
    · obtain ⟨a', ha', hf⟩ := ih hl hb
      exact ⟨a', List.mem_cons_of_mem a ha', hf⟩

theorem boundsOf_setBounds (g : SafetyGuard) (tool name : Bytes) (bounds : List SafetyBound) :
    boundsOf (setBounds g tool bounds) name = if name = tool then bounds else boundsOf g name := by
  unfold boundsOf setBounds
  by_cases h : name = tool
  · simp [h]
  · simp [List.lookup_cons, beq_eq_false_iff_ne.mpr h, h]

theorem FiniteBounds.setBounds (h : FiniteBounds g) (tool : Bytes) {bounds : List SafetyBound}
    (hb : ∀ b ∈ bounds, SafetyBoundFinite b) : FiniteBounds (setBounds g tool bounds) := by
  intro name b hmem
  rw [boundsOf_setBounds] at hmem
  split_ifs at hmem
  · exact hb b hmem
  · exact h name b hmem

theorem FiniteBounds.loadToolBounds (hnum : FiniteNumbers num) (g : SafetyGuard) (x : Bytes × Json)
    (h : FiniteBounds g) : FiniteBounds (loadToolBounds num g x).1 := by
  unfold SafetyConfig.loadToolBounds
  split
  · split
    · exact h
    · rename_i params bounds hbounds
      dsimp only
      split_ifs
      · exact h
      · refine h.setBounds _ fun b hb => ?_
        obtain ⟨p, -, hp⟩ := mem_of_mapM hbounds (List.mem_of_mem_filter hb)
        exact readBound_finite hnum hp
  · exact h

theorem FiniteBounds.addDeviceBound (hnum : FiniteNumbers num) (tool : Bytes) (g : SafetyGuard)
    (p : Json) (h : FiniteBounds g) : FiniteBounds (addDeviceBound num tool g p).1 := by
  unfold SafetyConfig.addDeviceBound
  split
  · exact h
  · rename_i b hb
    dsimp only
    split_ifs
    · exact h
    · refine h.setBounds _ fun c hc => ?_
      rcases List.mem_append.mp hc with hc | hc
      · exact h tool c hc
      · obtain rfl := List.mem_singleton.mp hc
        exact readBound_finite hnum hb

theorem FiniteBounds.addDeviceBounds (hnum : FiniteNumbers num) (g : SafetyGuard)
    (x : Bytes × Json) (h : FiniteBounds g) : FiniteBounds (addDeviceBounds num g x).1 := by
  unfold SafetyConfig.addDeviceBounds
  split
  · exact each_invariant (FiniteBounds.addDeviceBound hnum x.1) h _
  · exact h

/-- Whatever is in the files, the bounds that are loaded are rational numbers. -/
theorem finiteBounds_loaded (hnum : FiniteNumbers num) (truncate : NumberText → ℤ)
    (config device : Option Json) : FiniteBounds (loaded num truncate config device) := by
  have hconfig : FiniteBounds (loadConfig num truncate {} config).1 := by
    have hempty : FiniteBounds {} := fun tool b hb => absurd hb List.not_mem_nil
    cases config with
    | none => exact hempty
    | some j =>
      refine andThen_invariant (andThen_invariant ?_ fun g hg => ?_) fun g hg => hg
      · exact each_invariant (FiniteBounds.loadToolBounds hnum) hempty _
      · refine each_invariant (fun g x hg => ?_) hg _
        unfold loadRateRule
        split
        · exact hg
        · exact hg
  unfold loaded
  cases device with
  | none => exact hconfig
  | some j =>
    unfold loadDeviceProfile
    dsimp only
    split
    · exact hconfig
    · refine each_invariant (FiniteBounds.addDeviceBounds hnum) ?_ _
      exact hconfig

end Bounds

end SafetyConfig
