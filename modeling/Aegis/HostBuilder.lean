import Aegis.FirstOffer
import Mathlib.Data.Finset.Insert

/-!
# Which plugins a host loads

`HostBuilder::build` merges explicit plugins, declared shared objects and static
registrations under one list of enabled names. What a library or a constructor
does is given with each item, as opening one runs its code; `opened` records that
and nothing reads it.
-/

namespace Aegis

def pluginApiVersion : UInt32 := 1

structure HostConfig where
  enabledPlugins : Option (List String)
  disabledPlugins : List String
  deriving DecidableEq, Repr

def HostConfig.isEnabled (config : HostConfig) (name : String) : Bool :=
  if config.disabledPlugins.contains name then false
  else match config.enabledPlugins with
    | some list => list.contains name
    | none => true

/-- A declaration of a dynamic plugin. -/
structure DynamicPluginSpec where
  name : String
  path : String
  deriving DecidableEq, Repr

/-- What the entry point of a library does; a constructor may panic. -/
inductive EntryOutcome (P : Type) where
  | panicked
  | null
  | registered (apiVersion : UInt32) (constructor : Option P)

/-- What lies behind a path when it is reached. -/
structure Library (P : Type) where
  loadPathSafe : Bool
  opens : Bool
  hasEntry : Bool
  hasFree : Bool
  entry : EntryOutcome P

inductive DynamicLoadError where
  | unsafePath
  | opening
  | missingEntry
  | missingFree
  | panickedInEntry
  | nullRegistration
  | apiVersion (found expected : UInt32)
  deriving DecidableEq, Repr

/-- The constructor of a library that loads, by what it does when called. -/
def loadDynamic {P : Type} (library : Library P) : Except DynamicLoadError (Option P) :=
  if !library.loadPathSafe then .error .unsafePath
  else if !library.opens then .error .opening
  else if !library.hasEntry then .error .missingEntry
  else if !library.hasFree then .error .missingFree
  else match library.entry with
    | .panicked => .error .panickedInEntry
    | .null => .error .nullRegistration
    | .registered apiVersion constructor =>
        if apiVersion ≠ pluginApiVersion then .error (.apiVersion apiVersion pluginApiVersion)
        else .ok constructor

/-- A static registration with what its constructor does. -/
structure PluginRegistration (P : Type) where
  apiVersion : UInt32
  name : String
  constructor : Option P

structure LoadedPlugin (P : Type) where
  name : String
  plugin : P
  deriving DecidableEq, Repr

/-- A library being opened, and the names loaded by then. -/
structure Opening where
  spec : DynamicPluginSpec
  loaded : List String
  deriving DecidableEq, Repr

/-- The local variables of `build`; the set holds the names of the plugins. -/
structure Assembly (P : Type) where
  seen : Finset String
  loaded : List (LoadedPlugin P)
  libs : List String
  opened : List Opening
  mem_seen : ∀ n, n ∈ seen ↔ n ∈ loaded.map LoadedPlugin.name
  distinct : (loaded.map LoadedPlugin.name).Nodup

namespace Assembly
variable {P : Type}

def empty : Assembly P where
  seen := ∅
  loaded := []
  libs := []
  opened := []
  mem_seen := by simp
  distinct := List.nodup_nil

/-- A new name is entered along with its plugin. -/
def load (s : Assembly P) (name : String) (plugin : P) (h : name ∉ s.seen) : Assembly P where
  seen := insert name s.seen
  loaded := s.loaded ++ [⟨name, plugin⟩]
  libs := s.libs
  opened := s.opened
  mem_seen := by
    intro n
    simp [s.mem_seen, or_comm]
  distinct := by
    rw [List.map_append, List.nodup_append]
    refine ⟨s.distinct, by simp, ?_⟩
    rintro n hn m hm rfl
    have hname : n = name := by simpa using hm
    rw [hname] at hn
    exact h ((s.mem_seen name).mpr hn)

/-- Libraries stay mapped until the host is dropped. -/
def keep (s : Assembly P) (path : String) : Assembly P := { s with libs := s.libs ++ [path] }

@[simp] theorem keep_seen (s : Assembly P) (path : String) : (s.keep path).seen = s.seen := rfl

@[simp] theorem keep_loaded (s : Assembly P) (path : String) :
    (s.keep path).loaded = s.loaded := rfl

@[simp] theorem keep_opened (s : Assembly P) (path : String) :
    (s.keep path).opened = s.opened := rfl

/-- The path is checked before the library behind it is opened. -/
def openLibrary (s : Assembly P) (spec : DynamicPluginSpec) (library : Library P) : Assembly P :=
  if library.loadPathSafe then
    { s with opened := s.opened ++ [⟨spec, s.loaded.map LoadedPlugin.name⟩] }
  else s

@[simp] theorem openLibrary_seen (s : Assembly P) (spec : DynamicPluginSpec)
    (library : Library P) : (s.openLibrary spec library).seen = s.seen := by
  rw [openLibrary]
  split_ifs
  · rfl
  · rfl

@[simp] theorem openLibrary_loaded (s : Assembly P) (spec : DynamicPluginSpec)
    (library : Library P) : (s.openLibrary spec library).loaded = s.loaded := by
  rw [openLibrary]
  split_ifs
  · rfl
  · rfl

theorem mem_openLibrary {s : Assembly P} {spec : DynamicPluginSpec} {library : Library P}
    {o : Opening} (h : o ∈ (s.openLibrary spec library).opened) :
    o ∈ s.opened ∨ o = ⟨spec, s.loaded.map LoadedPlugin.name⟩ := by
  rw [openLibrary] at h
  split_ifs at h
  · simpa using h
  · exact Or.inl h

/-- The plugins by name. -/
def taken (s : Assembly P) : List (String × P) := s.loaded.map fun l => (l.name, l.plugin)

/-- The loaded plugin of a name. -/
def named (s : Assembly P) (n : String) : Option P := FirstOffer.lookup s.taken n

theorem taken_names (s : Assembly P) : s.taken.map Prod.fst = s.loaded.map LoadedPlugin.name := by
  rw [taken, List.map_map]
  rfl

theorem mem_seen_taken (s : Assembly P) (n : String) : n ∈ s.seen ↔ n ∈ s.taken.map Prod.fst := by
  rw [taken_names]
  exact s.mem_seen n

theorem taken_injective {s t : Assembly P} (h : s.taken = t.taken) : s.loaded = t.loaded := by
  refine List.map_injective_iff.mpr ?_ h
  rintro ⟨n, p⟩ ⟨m, q⟩ hpair
  cases hpair
  rfl

@[simp] theorem load_taken (s : Assembly P) (name : String) (plugin : P) (h : name ∉ s.seen) :
    (s.load name plugin h).taken = s.taken ++ [(name, plugin)] := by
  simp [taken, load]

@[simp] theorem keep_taken (s : Assembly P) (path : String) : (s.keep path).taken = s.taken := rfl

@[simp] theorem openLibrary_taken (s : Assembly P) (spec : DynamicPluginSpec)
    (library : Library P) : (s.openLibrary spec library).taken = s.taken := by
  rw [taken, openLibrary_loaded, taken]

end Assembly

/-- The host under construction; `registrations` is the inventory of the binary. -/
structure HostBuilder (P : Type) where
  config : HostConfig
  explicit : List P
  dynamicPlugins : List (DynamicPluginSpec × Library P)
  registrations : List (PluginRegistration P)
  discover : Bool

namespace HostBuilder
variable {P : Type} (metadataName : P → String) (config : HostConfig)

def addExplicit (s : Assembly P) (plugin : P) : Assembly P :=
  if h : config.isEnabled (metadataName plugin) = true ∧ metadataName plugin ∉ s.seen then
    s.load (metadataName plugin) plugin h.2
  else s

/-- A declared library is skipped unopened, fails the build, or is kept, and its plugin
is loaded if its constructor returns one of the declared name. -/
def addDynamic (s : Assembly P) (entry : DynamicPluginSpec × Library P) :
    Except (DynamicLoadError × List Opening) (Assembly P) :=
  if h : config.isEnabled entry.1.name = true ∧ entry.1.name ∉ s.seen then
    match loadDynamic entry.2 with
    | .error e => .error (e, (s.openLibrary entry.1 entry.2).opened)
    | .ok none => .ok ((s.openLibrary entry.1 entry.2).keep entry.1.path)
    | .ok (some plugin) =>
        if metadataName plugin ≠ entry.1.name then
          .ok ((s.openLibrary entry.1 entry.2).keep entry.1.path)
        else
          .ok (((s.openLibrary entry.1 entry.2).keep entry.1.path).load entry.1.name plugin
            (by simpa using h.2))
  else .ok s

def addStatic (s : Assembly P) (reg : PluginRegistration P) : Assembly P :=
  if reg.apiVersion ≠ pluginApiVersion then s
  else if h : config.isEnabled reg.name = true ∧ reg.name ∉ s.seen then
    match reg.constructor with
    | some plugin => s.load reg.name plugin h.2
    | none => s
  else s

def addDynamics (s : Assembly P) :
    List (DynamicPluginSpec × Library P) → Except (DynamicLoadError × List Opening) (Assembly P)
  | [] => .ok s
  | entry :: rest =>
      match addDynamic metadataName config s entry with
      | .error e => .error e
      | .ok s => addDynamics s rest

def build (b : HostBuilder P) : Except (DynamicLoadError × List Opening) (Assembly P) :=
  let s := b.explicit.foldl (addExplicit metadataName b.config) .empty
  match addDynamics metadataName b.config s b.dynamicPlugins with
  | .error e => .error e
  | .ok s => .ok (if b.discover then b.registrations.foldl (addStatic b.config) s else s)

/-- The plugin that a library yields under the declared name. -/
def dynamicPlugin (entry : DynamicPluginSpec × Library P) : Option P :=
  match loadDynamic entry.2 with
  | .ok (some plugin) => if metadataName plugin = entry.1.name then some plugin else none
  | _ => none

/-- The plugin of a registration for this version of the interface. -/
def staticPlugin (reg : PluginRegistration P) : Option P :=
  if reg.apiVersion = pluginApiVersion then reg.constructor else none

def explicitOffer (plugin : P) : String × Option P := (metadataName plugin, some plugin)

def dynamicOffer (entry : DynamicPluginSpec × Library P) : String × Option P :=
  (entry.1.name, dynamicPlugin metadataName entry)

def staticOffer (reg : PluginRegistration P) : String × Option P := (reg.name, staticPlugin reg)

def offers (b : HostBuilder P) : List (String × Option P) :=
  b.explicit.map (explicitOffer metadataName) ++
    (b.dynamicPlugins.map (dynamicOffer metadataName) ++
      if b.discover then b.registrations.map staticOffer else [])

variable {metadataName config} {s t : Assembly P}

theorem take_load {m : String} (h : config.isEnabled m = true ∧ m ∉ s.seen) (plugin : P) :
    FirstOffer.take config.isEnabled s.taken (m, some plugin) = s.taken ++ [(m, plugin)] := by
  rw [FirstOffer.take_some, if_pos ⟨h.1, fun hm => h.2 ((s.mem_seen_taken m).mpr hm)⟩]

theorem take_skip {m : String} (h : ¬ (config.isEnabled m = true ∧ m ∉ s.seen))
    (candidate : Option P) : FirstOffer.take config.isEnabled s.taken (m, candidate) = s.taken := by
  cases candidate with
  | none => rfl
  | some plugin =>
      rw [FirstOffer.take_some, if_neg]
      exact fun hnew => h ⟨hnew.1, fun hm => hnew.2 ((s.mem_seen_taken m).mp hm)⟩

theorem addExplicit_taken (plugin : P) :
    (addExplicit metadataName config s plugin).taken =
      FirstOffer.take config.isEnabled s.taken (explicitOffer metadataName plugin) := by
  rw [addExplicit, explicitOffer]
  by_cases hload : config.isEnabled (metadataName plugin) = true ∧ metadataName plugin ∉ s.seen
  · rw [dif_pos hload, take_load hload, Assembly.load_taken]
  · rw [dif_neg hload, take_skip hload]

theorem addStatic_taken (reg : PluginRegistration P) :
    (addStatic config s reg).taken =
      FirstOffer.take config.isEnabled s.taken (staticOffer reg) := by
  rw [addStatic, staticOffer, staticPlugin]
  by_cases hversion : reg.apiVersion = pluginApiVersion
  · rw [if_neg (not_not.mpr hversion), if_pos hversion]
    by_cases hload : config.isEnabled reg.name = true ∧ reg.name ∉ s.seen
    · rw [dif_pos hload]
      cases reg.constructor with
      | none => rfl
      | some plugin => rw [take_load hload, Assembly.load_taken]
    · rw [dif_neg hload, take_skip hload]
  · rw [if_pos hversion, if_neg hversion]
    rfl

theorem addDynamic_taken {entry : DynamicPluginSpec × Library P}
    (h : addDynamic metadataName config s entry = .ok t) :
    t.taken = FirstOffer.take config.isEnabled s.taken (dynamicOffer metadataName entry) := by
  rw [dynamicOffer, dynamicPlugin]
  rw [addDynamic] at h
  by_cases hload : config.isEnabled entry.1.name = true ∧ entry.1.name ∉ s.seen
  · rw [dif_pos hload] at h
    split at h
    · cases h
    · rename_i hnone
      cases h
      rw [hnone]
      simp [FirstOffer.take]
    · rename_i plugin hsome
      rw [hsome]
      split_ifs at h with hname
      · cases h
        dsimp only
        rw [if_neg hname]
        simp [FirstOffer.take]
      · cases h
        dsimp only
        rw [if_pos (not_not.mp hname), take_load hload]
        simp
  · rw [dif_neg hload] at h
    cases h
    rw [take_skip hload]

theorem foldl_addExplicit_taken (plugins : List P) :
    (plugins.foldl (addExplicit metadataName config) s).taken =
      FirstOffer.takeAll config.isEnabled s.taken (plugins.map (explicitOffer metadataName)) := by
  induction plugins generalizing s with
  | nil => rfl
  | cons plugin plugins ih =>
      rw [List.foldl_cons, ih, addExplicit_taken, List.map_cons, FirstOffer.takeAll_cons]

theorem foldl_addStatic_taken (regs : List (PluginRegistration P)) :
    (regs.foldl (addStatic config) s).taken =
      FirstOffer.takeAll config.isEnabled s.taken (regs.map staticOffer) := by
  induction regs generalizing s with
  | nil => rfl
  | cons reg regs ih =>
      rw [List.foldl_cons, ih, addStatic_taken, List.map_cons, FirstOffer.takeAll_cons]

theorem addDynamics_taken {entries : List (DynamicPluginSpec × Library P)}
    (h : addDynamics metadataName config s entries = .ok t) :
    t.taken = FirstOffer.takeAll config.isEnabled s.taken
      (entries.map (dynamicOffer metadataName)) := by
  induction entries generalizing s with
  | nil =>
      cases h
      rfl
  | cons entry entries ih =>
      rw [addDynamics] at h
      split at h
      · cases h
      · rename_i u hstep
        rw [ih h, addDynamic_taken hstep, List.map_cons, FirstOffer.takeAll_cons]

/-- What `build` loads is what the offers of its three sources leave, in their order. -/
theorem build_taken {b : HostBuilder P} {host : Assembly P}
    (h : build metadataName b = .ok host) :
    host.taken = FirstOffer.takeAll b.config.isEnabled [] (offers metadataName b) := by
  rw [build] at h
  split at h
  · cases h
  · rename_i u hdynamic
    rw [offers, FirstOffer.takeAll_append, FirstOffer.takeAll_append]
    have hexplicit : (b.explicit.foldl (addExplicit metadataName b.config) .empty).taken =
        FirstOffer.takeAll b.config.isEnabled [] (b.explicit.map (explicitOffer metadataName)) :=
      foldl_addExplicit_taken b.explicit
    rw [← hexplicit, ← addDynamics_taken hdynamic]
    cases h
    split_ifs
    · exact foldl_addStatic_taken b.registrations
    · rfl

/-- Opened while enabled and not loaded. -/
def Opening.Allowed (config : HostConfig) (o : Opening) : Prop :=
  config.isEnabled o.spec.name = true ∧ o.spec.name ∉ o.loaded

theorem addExplicit_opened (plugin : P) :
    (addExplicit metadataName config s plugin).opened = s.opened := by
  rw [addExplicit]
  split_ifs
  · rfl
  · rfl

theorem addStatic_opened (reg : PluginRegistration P) :
    (addStatic config s reg).opened = s.opened := by
  rw [addStatic]
  split_ifs
  · rfl
  · split
    · rfl
    · rfl
  · rfl

theorem foldl_addExplicit_opened (plugins : List P) :
    (plugins.foldl (addExplicit metadataName config) s).opened = s.opened := by
  induction plugins generalizing s with
  | nil => rfl
  | cons plugin plugins ih => rw [List.foldl_cons, ih, addExplicit_opened]

theorem foldl_addStatic_opened (regs : List (PluginRegistration P)) :
    (regs.foldl (addStatic config) s).opened = s.opened := by
  induction regs generalizing s with
  | nil => rfl
  | cons reg regs ih => rw [List.foldl_cons, ih, addStatic_opened]

/-- The libraries opened so far, also where the build has failed. -/
def openings : Except (DynamicLoadError × List Opening) (Assembly P) → List Opening
  | .error e => e.2
  | .ok s => s.opened

theorem addDynamic_openings (hs : ∀ o ∈ s.opened, Opening.Allowed config o)
    (entry : DynamicPluginSpec × Library P) :
    ∀ o ∈ openings (addDynamic metadataName config s entry), Opening.Allowed config o := by
  rw [addDynamic]
  by_cases hload : config.isEnabled entry.1.name = true ∧ entry.1.name ∉ s.seen
  · have hopen : ∀ o ∈ (s.openLibrary entry.1 entry.2).opened, Opening.Allowed config o := by
      intro o ho
      rcases Assembly.mem_openLibrary ho with ho | rfl
      · exact hs o ho
      · exact ⟨hload.1, fun hm => hload.2 ((s.mem_seen entry.1.name).mpr hm)⟩
    rw [dif_pos hload]
    split
    · exact hopen
    · exact hopen
    · split_ifs
      · exact hopen
      · exact hopen
  · rw [dif_neg hload]
    exact hs

theorem addDynamics_openings (entries : List (DynamicPluginSpec × Library P))
    (hs : ∀ o ∈ s.opened, Opening.Allowed config o) :
    ∀ o ∈ openings (addDynamics metadataName config s entries), Opening.Allowed config o := by
  induction entries generalizing s with
  | nil => exact hs
  | cons entry entries ih =>
      have hstep : ∀ o ∈ openings (addDynamic metadataName config s entry),
          Opening.Allowed config o := addDynamic_openings hs entry
      rw [addDynamics]
      split
      · rename_i e he
        rw [he] at hstep
        exact hstep
      · rename_i u hu
        rw [hu] at hstep
        exact ih hstep

/-- Whether the build succeeds or not, no library is opened for a plugin that is disabled
or loaded already. -/
theorem build_openings (b : HostBuilder P) :
    ∀ o ∈ openings (build metadataName b), Opening.Allowed b.config o := by
  have hexplicit : ∀ o ∈ (b.explicit.foldl (addExplicit metadataName b.config) .empty).opened,
      Opening.Allowed b.config o := by
    rw [foldl_addExplicit_opened]
    exact fun o ho => absurd ho List.not_mem_nil
  have hdynamic : ∀ o ∈ openings (addDynamics metadataName b.config
      (b.explicit.foldl (addExplicit metadataName b.config) .empty) b.dynamicPlugins),
      Opening.Allowed b.config o := addDynamics_openings b.dynamicPlugins hexplicit
  rw [build]
  split
  · rename_i e he
    rw [he] at hdynamic
    exact hdynamic
  · rename_i u hu
    rw [hu] at hdynamic
    rw [openings]
    split_ifs
    · rw [foldl_addStatic_opened]
      exact hdynamic
    · exact hdynamic

/-- The library's plugin has another name than the declared one. -/
def mismatched (metadataName : P → String) (entry : DynamicPluginSpec × Library P) : Bool :=
  match loadDynamic entry.2 with
  | .ok (some plugin) => metadataName plugin ≠ entry.1.name
  | _ => false

theorem dynamicPlugin_of_mismatched {entry : DynamicPluginSpec × Library P}
    (h : mismatched metadataName entry = true) : dynamicPlugin metadataName entry = none := by
  rw [mismatched] at h
  rw [dynamicPlugin]
  split
  · rename_i plugin hload
    rw [hload] at h
    exact if_neg (by simpa using h)
  · rfl

theorem addDynamic_ok {entry : DynamicPluginSpec × Library P} :
    (∃ t, addDynamic metadataName config s entry = .ok t) ↔
      (config.isEnabled entry.1.name = true ∧ entry.1.name ∉ s.seen →
        ∃ c, loadDynamic entry.2 = .ok c) := by
  rw [addDynamic]
  by_cases hload : config.isEnabled entry.1.name = true ∧ entry.1.name ∉ s.seen
  · rw [dif_pos hload]
    split
    · rename_i e he
      simp [he, hload]
    · rename_i hnone
      simp [hnone]
    · rename_i plugin hsome
      rw [hsome]
      constructor
      · exact fun _ _ => ⟨_, rfl⟩
      · intro _
        split_ifs
        · exact ⟨_, rfl⟩
        · exact ⟨_, rfl⟩
  · rw [dif_neg hload]
    constructor
    · exact fun _ h => absurd h hload
    · exact fun _ => ⟨s, rfl⟩

theorem addDynamic_of_taken {s' : Assembly P} {entry : DynamicPluginSpec × Library P}
    (hs : s'.taken = s.taken) (h : addDynamic metadataName config s entry = .ok t) :
    ∃ t', addDynamic metadataName config s' entry = .ok t' ∧ t'.taken = t.taken := by
  have hseen : entry.1.name ∈ s'.seen ↔ entry.1.name ∈ s.seen := by
    rw [s'.mem_seen_taken, s.mem_seen_taken, hs]
  have hok : ∃ t', addDynamic metadataName config s' entry = .ok t' := by
    rw [addDynamic_ok, hseen]
    exact addDynamic_ok.mp ⟨t, h⟩
  obtain ⟨t', ht'⟩ := hok
  exact ⟨t', ht', by rw [addDynamic_taken ht', addDynamic_taken h, hs]⟩

theorem addDynamics_without_mismatched {s' : Assembly P}
    {entries : List (DynamicPluginSpec × Library P)} (hs : s'.taken = s.taken)
    (h : addDynamics metadataName config s entries = .ok t) :
    ∃ t', addDynamics metadataName config s'
      (entries.filter fun e => !mismatched metadataName e) = .ok t' := by
  induction entries generalizing s s' with
  | nil => exact ⟨s', rfl⟩
  | cons entry entries ih =>
      rw [addDynamics] at h
      split at h
      · cases h
      · rename_i u hstep
        rw [List.filter_cons]
        split_ifs with hkeep
        · obtain ⟨u', hu', htaken⟩ := addDynamic_of_taken hs hstep
          rw [addDynamics, hu']
          exact ih htaken h
        · have hmismatched : mismatched metadataName entry = true := by simpa using hkeep
          have htaken := addDynamic_taken hstep
          rw [dynamicOffer, dynamicPlugin_of_mismatched hmismatched] at htaken
          exact ih (hs.trans htaken.symm) h

/-- The builder without the libraries whose plugins have another name. -/
def withoutMismatched (metadataName : P → String) (b : HostBuilder P) : HostBuilder P :=
  { b with dynamicPlugins := b.dynamicPlugins.filter fun e => !mismatched metadataName e }

theorem build_without_mismatched {b : HostBuilder P} {host : Assembly P}
    (h : build metadataName b = .ok host) :
    ∃ host', build metadataName (b.withoutMismatched metadataName) = .ok host' ∧
      host'.loaded = host.loaded := by
  have hbuild := h
  rw [build] at hbuild
  split at hbuild
  · cases hbuild
  · rename_i u hdynamic
    obtain ⟨u', hu'⟩ := addDynamics_without_mismatched rfl hdynamic
    have hok : ∃ host', build metadataName (b.withoutMismatched metadataName) = .ok host' := by
      rw [build, withoutMismatched, hu']
      exact ⟨_, rfl⟩
    obtain ⟨host', hhost'⟩ := hok
    refine ⟨host', hhost', Assembly.taken_injective ?_⟩
    rw [build_taken hhost', build_taken h, offers, offers, withoutMismatched]
    simp only [FirstOffer.takeAll_append]
    rw [FirstOffer.takeAll_filter]
    intro entry _ hkeep
    exact dynamicPlugin_of_mismatched (by simpa using hkeep)

theorem findSome?_explicit (plugins : List P) (n : String) :
    ((plugins.filter fun p => metadataName p = n).findSome? fun p => some p) =
      plugins.find? fun p => metadataName p = n := by
  induction plugins with
  | nil => rfl
  | cons plugin plugins ih =>
      rw [List.filter_cons, List.find?_cons]
      by_cases hn : metadataName plugin = n
      · simp only [hn, decide_true, if_true, List.findSome?_cons]
      · simp only [hn, decide_false, Bool.false_eq_true, if_false, ih]

/-- The first explicit plugin of an enabled name is loaded; else the first that a declared
library yields under it; else the first that a registration does. -/
theorem build_named {b : HostBuilder P} {host : Assembly P}
    (h : build metadataName b = .ok host) (n : String) :
    host.named n = if b.config.isEnabled n = true then
      (b.explicit.find? fun p => metadataName p = n).or
        (((b.dynamicPlugins.filter fun e => e.1.name = n).findSome? (dynamicPlugin metadataName)).or
          (if b.discover then
            (b.registrations.filter fun r => r.name = n).findSome? staticPlugin else none))
      else none := by
  rw [Assembly.named, build_taken h, FirstOffer.lookup_takeAll]
  by_cases henabled : b.config.isEnabled n = true
  · rw [if_pos henabled, if_pos henabled, offers, List.findSome?_append, List.findSome?_append,
      FirstOffer.findSome?_valueAt, FirstOffer.findSome?_valueAt, ← findSome?_explicit]
    split_ifs
    · rw [FirstOffer.findSome?_valueAt]
      rfl
    · rfl
  · rw [if_neg henabled, if_neg henabled]
    rfl

/-- After a build that succeeds the names are distinct and enabled, each name has the
plugin of the first source that offers one, no library was opened for a name disabled or
loaded already, and what a library yields under another name changes nothing. -/
theorem build_selection {b : HostBuilder P} {host : Assembly P}
    (h : build metadataName b = .ok host) :
    (host.loaded.map LoadedPlugin.name).Nodup ∧
      (∀ l ∈ host.loaded, b.config.isEnabled l.name = true) ∧
      (∀ n, host.named n = if b.config.isEnabled n = true then
        (b.explicit.find? fun p => metadataName p = n).or
          (((b.dynamicPlugins.filter fun e => e.1.name = n).findSome?
              (dynamicPlugin metadataName)).or
            (if b.discover then
              (b.registrations.filter fun r => r.name = n).findSome? staticPlugin else none))
        else none) ∧
      (∀ o ∈ host.opened, b.config.isEnabled o.spec.name = true ∧ o.spec.name ∉ o.loaded) ∧
      ∃ host', build metadataName (b.withoutMismatched metadataName) = .ok host' ∧
        host'.loaded = host.loaded := by
  refine ⟨host.distinct, ?_, build_named h, ?_, build_without_mismatched h⟩
  · intro l hl
    have hallowed : ∀ r ∈ host.taken, b.config.isEnabled r.1 = true := by
      rw [build_taken h]
      exact FirstOffer.takeAll_allowed fun r hr => absurd hr List.not_mem_nil
    exact hallowed (l.name, l.plugin) (List.mem_map_of_mem hl)
  · intro o ho
    have hopenings : ∀ o ∈ openings (build metadataName b), Opening.Allowed b.config o :=
      build_openings b
    rw [h] at hopenings
    exact hopenings o ho

/-- Two sources under "sink", a library with another name than "tty" and one that is
disabled. -/
def rivals : HostBuilder (String × ℕ) where
  config := ⟨none, ["ghost"]⟩
  explicit := [("sink", 1)]
  dynamicPlugins :=
    [(⟨"sink", "/a.so"⟩, ⟨true, true, true, true, .registered 1 (some ("sink", 2))⟩),
      (⟨"tty", "/b.so"⟩, ⟨true, true, true, true, .registered 1 (some ("process", 3))⟩),
      (⟨"ghost", "/c.so"⟩, ⟨true, false, false, false, .null⟩)]
  registrations := [⟨1, "tty", some ("tty", 4)⟩, ⟨1, "sink", some ("sink", 5)⟩]
  discover := true

theorem build_selection_rivals : ∃ host, build Prod.fst rivals = .ok host ∧
    (host.loaded.map LoadedPlugin.name).Nodup ∧
    ∀ o ∈ host.opened, rivals.config.isEnabled o.spec.name = true ∧ o.spec.name ∉ o.loaded := by
  have hok : (build Prod.fst rivals).isOk = true := by decide +kernel
  cases h : build Prod.fst rivals with
  | error e =>
      rw [h] at hok
      cases hok
  | ok host =>
      have hselection := build_selection h
      exact ⟨host, rfl, hselection.1, hselection.2.2.2.1⟩

example : (build Prod.fst rivals).map (fun host => (host.loaded.map LoadedPlugin.plugin,
    host.opened.map fun o => o.spec.name)) = .ok ([("sink", 1), ("tty", 4)], ["tty"]) := by
  decide +kernel

end HostBuilder
end Aegis
