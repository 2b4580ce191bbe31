import Mathlib.Logic.Function.Basic
import Jackdaw.Support.Durable

/-!
# Db — Migrations

`_run_migrations` of `engine.py` with the two revisions, over a SQLite database in which every DDL
statement and every write of the version table is durable on its own.  The run may be killed
before any statement.

* `migrations_converge_iff`: after any number of killed runs the next one brings the database to the
  last revision with all tables, columns and indexes and every row as it was, exactly where each kill
  came between two *units*: a revision with the write that records it, the version table of a stamp
  with its row, and every statement of the reconciliation by itself.  The revisions are plain
  `CREATE` and `ALTER` statements, so a run killed inside a unit fails at the same statement for
  ever (`migration_stuck`).
-/

namespace Jackdaw

open Support Durable

/-! ### The database -/

/-- The five tables. -/
inductive CoreTable where
  | accounts
  | certificates
  | nonces
  | orders
  | authorizations
deriving DecidableEq

/-- The four indexes. -/
inductive CoreIndex where
  | accountsPublicKey
  | certificatesSerial
  | noncesCreatedAt
  | ordersAccountId
deriving DecidableEq

/-- A table: its columns, and the values of its rows in their order, `none` for `NULL`. -/
structure SqlTable where
  columns : List String
  rows : List (List (Option String))

/-- `ADD COLUMN`. -/
def SqlTable.addColumn (tb : SqlTable) (column : String) : SqlTable :=
  ⟨tb.columns ++ [column], tb.rows.map (· ++ [none])⟩

/-- A database: the tables and indexes of the schema, any further tables, and the rows of
`alembic_version`. -/
structure SqliteDb where
  core : CoreTable → Option SqlTable
  indexes : CoreIndex → Bool
  extra : List (String × SqlTable)
  alembicVersion : Option (List String)

/-- `PRAGMA table_info`, its names. -/
def SqliteDb.columns (db : SqliteDb) (t : CoreTable) : List String :=
  (db.core t).elim [] (·.columns)

/-- `get_current_heads`. -/
def SqliteDb.heads (db : SqliteDb) : List String := db.alembicVersion.getD []

/-- The statements of a migration. -/
inductive Stmt where
  | createTable (t : CoreTable) (columns : List String)
  | createIndex (ifNotExists : Bool) (i : CoreIndex) (t : CoreTable) (column : String)
  | addColumn (t : CoreTable) (column : String)
  | createVersionTable
  | insertVersion (revision : String)
  | updateVersion (old new : String)

/-- A statement, executed. -/
def Stmt.exec : Stmt → SqliteDb → Except String SqliteDb
  | .createTable t columns, db =>
      if (db.core t).isSome then .error "table already exists"
      else .ok { db with core := Function.update db.core t (some ⟨columns, []⟩) }
  | .createIndex ifNotExists i t column, db =>
      match db.core t with
      | none => .error "no such table"
      | some tb =>
          if db.indexes i then if ifNotExists then .ok db else .error "index already exists"
          else if column ∈ tb.columns then
            .ok { db with indexes := Function.update db.indexes i true }
          else .error "no such column"
  | .addColumn t column, db =>
      match db.core t with
      | none => .error "no such table"
      | some tb =>
          if column ∈ tb.columns then .error "duplicate column name"
          else .ok { db with core := Function.update db.core t (some (tb.addColumn column)) }
  | .createVersionTable, db =>
      match db.alembicVersion with
      | some _ => .error "table alembic_version already exists"
      | none => .ok { db with alembicVersion := some [] }
  | .insertVersion revision, db =>
      match db.alembicVersion with
      | none => .error "no such table: alembic_version"
      | some heads =>
          if revision ∈ heads then .error "UNIQUE constraint failed"
          else .ok { db with alembicVersion := some (heads ++ [revision]) }
  | .updateVersion old new, db =>
      match db.alembicVersion with
      | none => .error "no such table: alembic_version"
      | some heads =>
          if old ∈ heads then
            .ok { db with alembicVersion := some (heads.map fun h => if h = old then new else h) }
          else .error "Online migration expected to match one row when updating"

/-! ### The revisions -/

/-- `0001_initial`. -/
def revInitial : String := "0001_initial"

/-- `0002_authz_error`. -/
def revAuthzError : String := "0002_authz_error"

/-- The columns of `_TABLES`. -/
def baselineColumns : CoreTable → List String
  | .accounts => ["id", "public_key", "contact", "status", "created_at"]
  | .certificates => ["id", "order_id", "pem_chain", "issued_at", "expires_at", "serial"]
  | .nonces => ["value", "used", "created_at"]
  | .orders => ["id", "account_id", "status", "identifiers", "le_order_url", "cert_id",
      "expires_at", "created_at", "error"]
  | .authorizations => ["id", "order_id", "identifier", "status", "challenge_token",
      "le_authz_url", "created_at"]

/-- The columns of the ORM models. -/
def modelColumns : CoreTable → List String
  | .accounts => ["id", "public_key", "contact", "status", "created_at"]
  | .orders => ["id", "account_id", "status", "identifiers", "le_order_url", "cert_id",
      "expires_at", "created_at", "error"]
  | .authorizations => ["id", "order_id", "identifier", "status", "challenge_token",
      "le_authz_url", "created_at", "error"]
  | .certificates => ["id", "order_id", "pem_chain", "issued_at", "expires_at", "serial"]
  | .nonces => ["value", "used", "created_at"]

/-- `upgrade` of `0001_initial`: `_TABLES` and `_INDEXES`. -/
def upgradeInitial : List Stmt :=
  [.createTable .accounts (baselineColumns .accounts),
    .createTable .certificates (baselineColumns .certificates),
    .createTable .nonces (baselineColumns .nonces),
    .createTable .orders (baselineColumns .orders),
    .createTable .authorizations (baselineColumns .authorizations),
    .createIndex false .accountsPublicKey .accounts "public_key",
    .createIndex false .certificatesSerial .certificates "serial",
    .createIndex false .noncesCreatedAt .nonces "created_at",
    .createIndex false .ordersAccountId .orders "account_id"]

/-- `upgrade` of `0002_authz_error`. -/
def upgradeAuthzError : List Stmt := [.addColumn .authorizations "error"]

/-! ### `_run_migrations` -/

/-- A migration in progress. -/
abbrev Mig := Prog SqliteDb String

/-- `_ensure_version_table`. -/
def ensureVersionTable : Mig Unit := do
  let db ← read
  if db.alembicVersion.isNone then exec Stmt.exec .createVersionTable else pure ()

/-- `command.upgrade(cfg, "head")`: the revisions after the recorded one. -/
def upgrade : Mig Unit := do
  let db ← read
  match db.heads with
  | [] => do
      ensureVersionTable
      perform Stmt.exec upgradeInitial
      exec Stmt.exec (.insertVersion revInitial)
      perform Stmt.exec upgradeAuthzError
      exec Stmt.exec (.updateVersion revInitial revAuthzError)
  | [revision] =>
      if revision = revInitial then do
        perform Stmt.exec upgradeAuthzError
        exec Stmt.exec (.updateVersion revInitial revAuthzError)
      else if revision = revAuthzError then pure ()
      else raise "Can't locate revision"
  | _ => raise "Can't locate revision"

/-- `command.stamp`. -/
def stamp (revision : String) : Mig Unit := do
  let db ← read
  match db.heads with
  | [] => do
      ensureVersionTable
      exec Stmt.exec (.insertVersion revision)
  | [old] => if old = revision then pure () else exec Stmt.exec (.updateVersion old revision)
  | _ => raise "Can't locate revision"

/-- A line of `_PRE_ALEMBIC_COLUMNS`. -/
def addMissingColumn (t : CoreTable) (column : String) : Mig Unit := do
  let db ← read
  if db.columns t ≠ [] ∧ column ∉ db.columns t then exec Stmt.exec (.addColumn t column)
  else pure ()

/-- `_PRE_ALEMBIC_INDEXES`. -/
def preAlembicIndexes : List Stmt :=
  [.createIndex true .accountsPublicKey .accounts "public_key",
    .createIndex true .noncesCreatedAt .nonces "created_at",
    .createIndex true .ordersAccountId .orders "account_id",
    .createIndex true .certificatesSerial .certificates "serial"]

/-- `_reconcile_pre_alembic`. -/
def reconcilePreAlembic : Mig Unit := do
  addMissingColumn .orders "error"
  addMissingColumn .certificates "serial"
  perform Stmt.exec preAlembicIndexes

/-- `_run_migrations`. -/
def runMigrations : Mig Unit := do
  let db ← read
  if db.alembicVersion.isSome then upgrade
  else if (db.core .accounts).isSome then do
    reconcilePreAlembic
    stamp revInitial
    upgrade
  else upgrade

/-! ### Units -/

/-- A revision, with the write that records it. -/
def unitInitial : List Stmt := upgradeInitial ++ [.insertVersion revInitial]

def unitAuthzError : List Stmt := upgradeAuthzError ++ [.updateVersion revInitial revAuthzError]

def missingColumn (db : SqliteDb) (t : CoreTable) (column : String) : List Stmt :=
  if db.columns t ≠ [] ∧ column ∉ db.columns t then [.addColumn t column] else []

/-- The statements of `_reconcile_pre_alembic`. -/
def reconcileStmts (db : SqliteDb) : List Stmt :=
  missingColumn db .orders "error" ++ (missingColumn db .certificates "serial" ++ preAlembicIndexes)

/-- The statements of `_run_migrations`, in the units that belong together. -/
def migrationUnits (db : SqliteDb) : List (List Stmt) :=
  match db.alembicVersion with
  | some heads =>
      if heads = [] then [unitInitial, unitAuthzError]
      else if heads = [revInitial] then [unitAuthzError]
      else []
  | none =>
      if (db.core .accounts).isSome then
        (reconcileStmts db).map ([·]) ++
          [[.createVersionTable, .insertVersion revInitial], unitAuthzError]
      else [[.createVersionTable], unitInitial, unitAuthzError]

variable {db db' : SqliteDb} {t : CoreTable} {column : String}

/-! ### What a statement keeps -/

/-- Every table and index that was there is there, every row with its values, and new columns
empty. -/
structure Keeps (db db' : SqliteDb) : Prop where
  tables : ∀ t tb, db.core t = some tb → ∃ new : List String,
    db'.core t = some ⟨tb.columns ++ new, tb.rows.map (· ++ new.map fun _ => none)⟩
  indexes : ∀ i, db.indexes i = true → db'.indexes i = true
  extra : db'.extra = db.extra

theorem Keeps.refl (db : SqliteDb) : Keeps db db where
  tables t tb h := ⟨[], by simp [h]⟩
  indexes _ h := h
  extra := rfl

theorem Keeps.trans {db₁ db₂ db₃ : SqliteDb} (h : Keeps db₁ db₂) (h' : Keeps db₂ db₃) :
    Keeps db₁ db₃ where
  tables t tb ht := by
    obtain ⟨new, hnew⟩ := h.tables t tb ht
    obtain ⟨new', hnew'⟩ := h'.tables t _ hnew
    exact ⟨new ++ new', by simp [hnew', List.map_map, Function.comp_def]⟩
  indexes i hi := h'.indexes i (h.indexes i hi)
  extra := h'.extra.trans h.extra

/-- A database whose only new tables were not there, or are there with a column more. -/
theorem Keeps.of_update {v : SqlTable} (h : ∀ tb, db.core t = some tb → ∃ new : List String,
      v = ⟨tb.columns ++ new, tb.rows.map (· ++ new.map fun _ => none)⟩) :
    Keeps db { db with core := Function.update db.core t (some v) } where
  tables u tb hu := by
    by_cases e : u = t
    · subst e
      obtain ⟨new, rfl⟩ := h tb hu
      exact ⟨new, Function.update_self ..⟩
    · exact ⟨[], by simp [Function.update_of_ne e, hu]⟩
  indexes _ hi := hi
  extra := rfl

theorem Keeps.of_version (heads : Option (List String)) :
    Keeps db { db with alembicVersion := heads } where
  tables := (Keeps.refl db).tables
  indexes _ hi := hi
  extra := rfl

theorem Stmt.exec_keeps {k : Stmt} (h : k.exec db = .ok db') : Keeps db db' := by
  cases k with
  | createTable t columns =>
      simp only [Stmt.exec] at h
      split at h
      · cases h
      · next hnone =>
          cases h
          exact Keeps.of_update fun tb htb => absurd (by rw [htb]; rfl) hnone
  | createIndex ifNotExists i t column =>
      simp only [Stmt.exec] at h
      split at h
      · cases h
      · split at h
        · split at h
          · cases h
            exact Keeps.refl db
          · cases h
        · split at h
          · cases h
            refine ⟨(Keeps.refl db).tables, fun j hj => ?_, rfl⟩
            by_cases e : j = i
            · rw [e]
              exact Function.update_self ..
            · exact (Function.update_of_ne e ..).trans hj
          · cases h
  | addColumn t column =>
      simp only [Stmt.exec] at h
      split at h
      · cases h
      · next tb htb =>
          split at h
          · cases h
          · cases h
            refine Keeps.of_update fun tb' htb' => ⟨[column], ?_⟩
            rw [htb] at htb'
            cases htb'
            rfl
  | createVersionTable =>
      simp only [Stmt.exec] at h
      split at h
      · cases h
      · cases h
        exact Keeps.of_version _
  | insertVersion revision | updateVersion old new =>
      simp only [Stmt.exec] at h
      split at h
      · cases h
      · split at h
        all_goals cases h
        exact Keeps.of_version _

theorem Keeps.columns (h : Keeps db db') (t : CoreTable) : db.columns t ⊆ db'.columns t := by
  unfold SqliteDb.columns
  cases ht : db.core t with
  | none => exact List.nil_subset _
  | some tb =>
      obtain ⟨new, hnew⟩ := h.tables t tb ht
      rw [hnew]
      exact List.subset_append_left _ _

theorem Keeps.isSome (h : Keeps db db') (ht : (db.core t).isSome) : (db'.core t).isSome := by
  obtain ⟨tb, htb⟩ := Option.isSome_iff_exists.mp ht
  obtain ⟨new, hnew⟩ := h.tables t tb htb
  rw [hnew]
  rfl

/-! ### The statements a run performs -/

theorem performs_perform (ks : List Stmt) : Performs Stmt.exec (perform Stmt.exec ks) db ks :=
  fun _ => rfl

theorem performs_addMissingColumn (t : CoreTable) (column : String) :
    Performs Stmt.exec (addMissingColumn t column) db (missingColumn db t column) := by
  refine Performs.read ?_
  unfold missingColumn
  split
  · exact .exec _
  · exact .pure

theorem performs_ensure_none (h : db.alembicVersion = none) :
    Performs Stmt.exec ensureVersionTable db [.createVersionTable] := by
  refine Performs.read ?_
  simp only [h, Option.isNone_none, if_true]
  exact .exec _

theorem performs_ensure_some {heads : List String} (h : db.alembicVersion = some heads) :
    Performs Stmt.exec ensureVersionTable db [] := by
  refine Performs.read ?_
  simp only [h, Option.isNone_some, Bool.false_eq_true, if_false]
  exact .pure

theorem performs_upgrade_initial (h : db.heads = [revInitial]) :
    Performs Stmt.exec upgrade db unitAuthzError := by
  refine Performs.read ?_
  simp only [h, if_pos]
  exact (performs_perform _).bind fun _ _ => .exec _

theorem performs_upgrade_empty {ks : List Stmt} (h : db.heads = [])
    (hensure : Performs Stmt.exec ensureVersionTable db ks) :
    Performs Stmt.exec upgrade db (ks ++ (unitInitial ++ unitAuthzError)) := by
  refine Performs.read ?_
  simp only [h]
  refine hensure.bind fun _ _ => ?_
  rw [unitInitial, List.append_assoc]
  refine (performs_perform _).bind fun _ _ => ?_
  refine (Performs.exec _).bind fun _ _ => ?_
  exact (performs_perform _).bind fun _ _ => .exec _

theorem performs_upgrade_last (h : db.heads = [revAuthzError]) :
    Performs Stmt.exec upgrade db [] := by
  refine Performs.read ?_
  have hne : revAuthzError ≠ revInitial := by decide
  simp only [h, if_neg hne, if_pos]
  exact .pure

/-- The statements that write no version. -/
def Stmt.isDdl : Stmt → Bool
  | .createTable _ _ | .createIndex _ _ _ _ | .addColumn _ _ => true
  | _ => false

theorem Stmt.exec_version {k : Stmt} (hk : k.isDdl = true) (h : k.exec db = .ok db') :
    db'.alembicVersion = db.alembicVersion := by
  cases k with
  | createTable t columns =>
      simp only [Stmt.exec] at h
      split at h
      all_goals cases h
      rfl
  | createIndex ifNotExists i t column =>
      simp only [Stmt.exec] at h
      split at h
      · cases h
      · split at h
        all_goals split at h
        all_goals cases h
        all_goals rfl
  | addColumn t column =>
      simp only [Stmt.exec] at h
      split at h
      · cases h
      · split at h
        all_goals cases h
        rfl
  | createVersionTable | insertVersion revision | updateVersion old new => cases hk

/-- The table whose columns a statement changes. -/
def Stmt.table : Stmt → Option CoreTable
  | .createTable t _ | .addColumn t _ => some t
  | _ => none

theorem Stmt.exec_core {k : Stmt} (hk : k.table ≠ some t) (h : k.exec db = .ok db') :
    db'.core t = db.core t := by
  cases k with
  | createTable u columns =>
      simp only [Stmt.exec] at h
      split at h
      all_goals cases h
      exact Function.update_of_ne (fun e => hk (congrArg some e.symm)) ..
  | addColumn u column =>
      simp only [Stmt.exec] at h
      split at h
      · cases h
      · split at h
        all_goals cases h
        exact Function.update_of_ne (fun e => hk (congrArg some e.symm)) ..
  | createIndex ifNotExists i u column =>
      simp only [Stmt.exec] at h
      split at h
      · cases h
      · split at h
        all_goals split at h
        all_goals cases h
        all_goals rfl
  | createVersionTable =>
      simp only [Stmt.exec] at h
      split at h
      all_goals cases h
      rfl
  | insertVersion revision | updateVersion old new =>
      simp only [Stmt.exec] at h
      split at h
      · cases h
      · split at h
        all_goals cases h
        rfl

theorem reached_version {ks : List Stmt} (hks : ∀ k ∈ ks, k.isDdl = true) :
    (reached Stmt.exec ks db).alembicVersion = db.alembicVersion := by
  refine reached_induction (P := fun st : SqliteDb => st.alembicVersion = db.alembicVersion) ?_ rfl
  exact fun k hk st st' hst h => (Stmt.exec_version (hks k hk) h).trans hst

theorem mem_missingColumn {k : Stmt} (h : k ∈ missingColumn db t column) :
    k = .addColumn t column := by
  unfold missingColumn at h
  split at h
  · exact List.mem_singleton.mp h
  · cases h

theorem mem_reconcileStmts {k : Stmt} (h : k ∈ reconcileStmts db) :
    k = .addColumn .orders "error" ∨ k = .addColumn .certificates "serial" ∨
      k ∈ preAlembicIndexes := by
  rcases List.mem_append.mp h with h | h
  · exact .inl (mem_missingColumn h)
  · rcases List.mem_append.mp h with h | h
    · exact .inr (.inl (mem_missingColumn h))
    · exact .inr (.inr h)

theorem isDdl_reconcileStmts {k : Stmt} (h : k ∈ reconcileStmts db) : k.isDdl = true := by
  have hall : ∀ k ∈ preAlembicIndexes, k.isDdl = true := by decide
  rcases mem_reconcileStmts h with rfl | rfl | h
  · rfl
  · rfl
  · exact hall k h

/-- A missing column is added, and the other tables stay. -/
theorem execAll_missingColumn (db : SqliteDb) (t : CoreTable) (column : String) :
    ∃ db', execAll Stmt.exec (missingColumn db t column) db = .ok db' ∧
      (∀ u, u ≠ t → db'.core u = db.core u) ∧ (db.columns t ≠ [] → column ∈ db'.columns t) := by
  by_cases h : db.columns t ≠ [] ∧ column ∉ db.columns t
  · cases ht : db.core t with
    | none => exact absurd (by rw [SqliteDb.columns, ht]; rfl) h.1
    | some tb =>
        have hcol : column ∉ tb.columns := by simpa [SqliteDb.columns, ht] using h.2
        refine ⟨{ db with core := Function.update db.core t (some (tb.addColumn column)) }, ?_,
          fun u hu => Function.update_of_ne hu .., fun _ => ?_⟩
        · simp only [missingColumn, if_pos h, execAll, Stmt.exec, ht, if_neg hcol]
        · simp [SqliteDb.columns, SqlTable.addColumn]
  · refine ⟨db, by simp only [missingColumn, if_neg h, execAll], fun _ _ => rfl, fun hne => ?_⟩
    exact not_not.mp fun hcol => h ⟨hne, hcol⟩

theorem missingColumn_congr (h : db'.core t = db.core t) :
    missingColumn db' t column = missingColumn db t column := by
  unfold missingColumn SqliteDb.columns
  rw [h]

theorem performs_reconcile : Performs Stmt.exec reconcilePreAlembic db (reconcileStmts db) := by
  refine (performs_addMissingColumn _ _).bind fun db₁ h₁ => ?_
  obtain ⟨db', hdb', hcore, -⟩ := execAll_missingColumn db .orders "error"
  cases h₁.symm.trans hdb'
  rw [← missingColumn_congr (hcore .certificates (by decide))]
  exact (performs_addMissingColumn _ _).bind fun _ _ => performs_perform _

/-- The version table of a stamp, with its row. -/
theorem execAll_stamp (h : db.alembicVersion = none) :
    execAll Stmt.exec [.createVersionTable, .insertVersion revInitial] db =
      .ok { db with alembicVersion := some [revInitial] } := by
  simp [execAll, Stmt.exec, h]

theorem performs_stamp (h : db.alembicVersion = none) :
    Performs Stmt.exec (stamp revInitial) db [.createVersionTable, .insertVersion revInitial] := by
  refine Performs.read ?_
  have hheads : db.heads = [] := by rw [SqliteDb.heads, h]; rfl
  simp only [hheads]
  exact (performs_ensure_none h).bind fun _ _ => .exec _

/-- The version tables a run knows. -/
def KnownVersion (db : SqliteDb) : Prop :=
  db.alembicVersion = none ∨ db.alembicVersion = some [] ∨
    db.alembicVersion = some [revInitial] ∨ db.alembicVersion = some [revAuthzError]

/-- **A run performs its units**, however soon it is killed. -/
theorem runMigrations_performs (h : KnownVersion db) :
    Performs Stmt.exec runMigrations db (migrationUnits db).flatten := by
  refine Performs.read ?_
  rcases h with h | h | h | h
  · have hheads : db.heads = [] := by rw [SqliteDb.heads, h]; rfl
    by_cases ha : (db.core .accounts).isSome = true
    · have hunits : (migrationUnits db).flatten = reconcileStmts db ++
          ([.createVersionTable, .insertVersion revInitial] ++ unitAuthzError) := by
        simp [migrationUnits, h, ha, ← List.flatMap_def]
      rw [hunits]
      simp only [h, Option.isSome_none, Bool.false_eq_true, if_false, ha, if_true]
      refine performs_reconcile.bind fun db₁ h₁ => ?_
      have hv : db₁.alembicVersion = none := by
        rw [← reached_of_ok h₁, reached_version fun k hk => isDdl_reconcileStmts hk, h]
      refine (performs_stamp hv).bind fun db₂ h₂ => ?_
      rw [execAll_stamp hv] at h₂
      cases h₂
      exact performs_upgrade_initial rfl
    · have hunits : (migrationUnits db).flatten =
          [.createVersionTable] ++ (unitInitial ++ unitAuthzError) := by
        simp [migrationUnits, h, ha]
      rw [hunits]
      simp only [h, Option.isSome_none, Bool.false_eq_true, if_false, ha]
      exact performs_upgrade_empty hheads (performs_ensure_none h)
  · have hunits : (migrationUnits db).flatten = [] ++ (unitInitial ++ unitAuthzError) := by
      simp [migrationUnits, h]
    rw [hunits]
    simp only [h, Option.isSome_some, if_true]
    exact performs_upgrade_empty (by rw [SqliteDb.heads, h]; rfl) (performs_ensure_some h)
  · have hunits : (migrationUnits db).flatten = unitAuthzError := by simp [migrationUnits, h]
    rw [hunits]
    simp only [h, Option.isSome_some, if_true]
    exact performs_upgrade_initial (by rw [SqliteDb.heads, h]; rfl)
  · have hne : revAuthzError ≠ revInitial := by decide
    have hunits : (migrationUnits db).flatten = [] := by simp [migrationUnits, h, hne]
    rw [hunits]
    simp only [h, Option.isSome_some, if_true]
    exact performs_upgrade_last (by rw [SqliteDb.heads, h]; rfl)

/-! ### Where a run may start -/

/-- The tables are there, with these columns. -/
def HasColumns (columns : CoreTable → List String) (db : SqliteDb) : Prop :=
  ∀ t, (db.core t).isSome ∧ columns t ⊆ db.columns t

/-- The columns of the first releases: the baseline without the late ones. -/
def earlyColumns : CoreTable → List String
  | .orders => (baselineColumns .orders).erase "error"
  | .certificates => (baselineColumns .certificates).erase "serial"
  | t => baselineColumns t

/-- No tables of the schema; a version table, at most, without a row. -/
def EmptySchema (db : SqliteDb) : Prop :=
  (∀ t, db.core t = none) ∧ (∀ i, db.indexes i = false) ∧
    (db.alembicVersion = none ∨ db.alembicVersion = some [])

/-- The five tables with any of the late columns and indexes, and no version table. -/
def PreAlembic (db : SqliteDb) : Prop :=
  db.alembicVersion = none ∧ HasColumns earlyColumns db ∧ "error" ∉ db.columns .authorizations

/-- At `0001_initial`. -/
def AtInitial (db : SqliteDb) : Prop :=
  db.alembicVersion = some [revInitial] ∧ HasColumns baselineColumns db ∧
    (∀ i, db.indexes i = true) ∧ "error" ∉ db.columns .authorizations

/-- At `0002_authz_error`, with the schema of the models. -/
def Current (db : SqliteDb) : Prop :=
  db.alembicVersion = some [revAuthzError] ∧ HasColumns modelColumns db ∧
    ∀ i, db.indexes i = true

/-- The states a run starts from. -/
def Startable (db : SqliteDb) : Prop := EmptySchema db ∨ PreAlembic db ∨ AtInitial db ∨ Current db

/-- The schema is ahead of what is recorded. -/
def Ahead (db : SqliteDb) : Prop :=
  (db.alembicVersion = some [] ∧ (db.core .accounts).isSome) ∨
    (db.alembicVersion = some [revInitial] ∧ "error" ∈ db.columns .authorizations)

theorem HasColumns.mono {columns : CoreTable → List String} (h : HasColumns columns db)
    (hk : Keeps db db') : HasColumns columns db' :=
  fun t => ⟨hk.isSome (h t).1, List.Subset.trans (h t).2 (hk.columns t)⟩

theorem Current.runs (h : Current db) :
    UnitRun Stmt.exec Startable Ahead db (migrationUnits db) db := by
  have hne : revAuthzError ≠ revInitial := by decide
  have hunits : migrationUnits db = [] := by simp [migrationUnits, h.1, hne]
  rw [hunits]
  exact .nil (.inr (.inr (.inr h)))

theorem exec_updateVersion {old new : String} (h : db.alembicVersion = some [old]) :
    (Stmt.updateVersion old new).exec db = .ok { db with alembicVersion := some [new] } := by
  simp [Stmt.exec, h]

/-- The models have the column of `0002_authz_error` on top of the baseline. -/
theorem HasColumns.model (h : HasColumns baselineColumns db)
    (herror : "error" ∈ db.columns .authorizations) : HasColumns modelColumns db := by
  intro t
  refine ⟨(h t).1, fun column hcolumn => ?_⟩
  cases t with
  | authorizations =>
      rcases List.mem_append.mp (show column ∈ baselineColumns .authorizations ++ ["error"] from
        hcolumn) with hb | he
      · exact (h .authorizations).2 hb
      · rw [List.mem_singleton.mp he]
        exact herror
  | _ => exact (h _).2 hcolumn

/-- `0002_authz_error` on `0001_initial`: killed before the revision is recorded, it has the column
already. -/
theorem AtInitial.runs (h : AtInitial db) : ∃ db', Current db' ∧
    UnitRun Stmt.exec Startable Ahead db [unitAuthzError] db' := by
  obtain ⟨hversion, hcols, hindexes, herror⟩ := id h
  obtain ⟨tb, htb⟩ := Option.isSome_iff_exists.mp (hcols .authorizations).1
  have hcol : "error" ∉ tb.columns := by simpa [SqliteDb.columns, htb] using herror
  obtain ⟨db₁, hdb₁⟩ : ∃ db₁, db₁ = ({ db with
    core := Function.update db.core .authorizations (some (tb.addColumn "error")) } : SqliteDb) :=
    ⟨_, rfl⟩
  have hadd : (Stmt.addColumn .authorizations "error").exec db = .ok db₁ := by
    simp only [Stmt.exec, htb, if_neg hcol, hdb₁]
  have hversion₁ : db₁.alembicVersion = some [revInitial] := by rw [hdb₁, hversion]
  have herror₁ : "error" ∈ db₁.columns .authorizations := by
    simp [hdb₁, SqliteDb.columns, SqlTable.addColumn]
  have hcurrent : Current { db₁ with alembicVersion := some [revAuthzError] } :=
    ⟨rfl, (hcols.mono (Stmt.exec_keeps hadd)).model herror₁, by rw [hdb₁]; exact hindexes⟩
  refine ⟨_, hcurrent, .cons (.inr (.inr (.inl h))) ?_ ?_ (.nil (.inr (.inr (.inr hcurrent))))⟩
  · simp only [unitAuthzError, upgradeAuthzError, List.singleton_append, execAll, hadd,
      exec_updateVersion hversion₁]
  · intro n hpos hlt
    have hn : n = 1 := by
      have hlen : unitAuthzError.length = 2 := rfl
      omega
    subst hn
    have hreached : reached Stmt.exec (unitAuthzError.take 1) db = db₁ := by
      simp only [unitAuthzError, upgradeAuthzError, List.singleton_append, List.take_succ_cons,
        List.take_zero, reached, hadd]
    rw [hreached]
    exact .inr ⟨hversion₁, herror₁⟩

/-- `0001_initial` on nothing: killed before the revision is recorded, it has `accounts` already. -/
theorem EmptySchema.runs (h : EmptySchema db) (hversion : db.alembicVersion = some []) : ∃ db', Current db' ∧
    UnitRun Stmt.exec Startable Ahead db [unitInitial, unitAuthzError] db' := by
  obtain ⟨core, indexes, extra, version⟩ := db
  obtain ⟨hcore, hindexes, -⟩ := id h
  obtain rfl : core = fun _ => none := funext hcore
  obtain rfl : indexes = fun _ => false := funext hindexes
  obtain rfl : version = some [] := hversion
  obtain ⟨db₁, hdb₁⟩ : ∃ db₁, db₁ = (⟨fun t => some ⟨baselineColumns t, []⟩, fun _ => true, extra,
    some [revInitial]⟩ : SqliteDb) := ⟨_, rfl⟩
  have hexec : execAll Stmt.exec unitInitial ⟨fun _ => none, fun _ => false, extra, some []⟩ =
      .ok db₁ := by
    rw [hdb₁]
    simp only [unitInitial, upgradeInitial, List.cons_append, List.nil_append, execAll, Stmt.exec]
    simp [Function.update, baselineColumns]
    constructor
    · funext t
      cases t <;> rfl
    · funext i
      cases i <;> rfl
  have hat : AtInitial db₁ := by
    rw [hdb₁]
    exact ⟨rfl, fun t => ⟨rfl, List.Subset.refl _⟩, fun _ => rfl, by simp [SqliteDb.columns, baselineColumns]⟩
  obtain ⟨db', hcurrent, hrest⟩ := hat.runs
  refine ⟨db', hcurrent, .cons (.inl h) hexec ?_ hrest⟩
  intro n hpos hlt
  obtain ⟨m, rfl⟩ : ∃ m, n = m + 1 := ⟨n - 1, by omega⟩
  -- The first statement creates `accounts`; the others before the record are DDL.
  have htake : unitInitial.take (m + 1) = .createTable .accounts (baselineColumns .accounts) ::
      upgradeInitial.tail.take m := by
    have hm : m ≤ upgradeInitial.tail.length := Nat.le_of_lt_succ (Nat.lt_of_succ_lt_succ hlt)
    rw [← List.take_append_of_le_length hm]
    rfl
  have hddl : ∀ k ∈ upgradeInitial.tail.take m, k.isDdl = true := by
    have hall : ∀ k ∈ upgradeInitial.tail, k.isDdl = true := by decide
    exact fun k hk => hall k (List.mem_of_mem_take hk)
  rw [htake]
  simp only [reached, Stmt.exec, Option.isSome_none, Bool.false_eq_true, if_false]
  refine .inl ⟨reached_version hddl, ?_⟩
  refine reached_induction (P := fun st : SqliteDb => (st.core .accounts).isSome = true) ?_ ?_
  · exact fun k _ st st' hst hk => (Stmt.exec_keeps hk).isSome hst
  · simp

theorem execAll_keeps {ks : List Stmt} (h : execAll Stmt.exec ks db = .ok db') : Keeps db db' := by
  rw [← reached_of_ok h]
  exact reached_induction (fun k _ st st' hst hk => hst.trans (Stmt.exec_keeps hk)) (Keeps.refl db)

/-- `CREATE INDEX IF NOT EXISTS` on a column that is there. -/
theorem exec_createIndex {i : CoreIndex} (h : column ∈ db.columns t) :
    (Stmt.createIndex true i t column).exec db =
      .ok { db with indexes := Function.update db.indexes i true } := by
  cases ht : db.core t with
  | none =>
      rw [SqliteDb.columns, ht] at h
      cases h
  | some tb =>
      have hcol : column ∈ tb.columns := by simpa [SqliteDb.columns, ht] using h
      simp only [Stmt.exec, ht, if_pos hcol, if_true]
      split
      · next hi => rw [← hi, Function.update_eq_self]
      · rfl

/-- The baseline is the early columns with the two late ones. -/
theorem HasColumns.baseline (h : HasColumns earlyColumns db) (herror : "error" ∈ db.columns .orders)
    (hserial : "serial" ∈ db.columns .certificates) : HasColumns baselineColumns db := by
  intro t
  refine ⟨(h t).1, fun column hcolumn => ?_⟩
  cases t with
  | orders =>
      by_cases e : column = "error"
      · exact e ▸ herror
      · exact (h .orders).2 ((List.mem_erase_of_ne e).mpr hcolumn)
  | certificates =>
      by_cases e : column = "serial"
      · exact e ▸ hserial
      · exact (h .certificates).2 ((List.mem_erase_of_ne e).mpr hcolumn)
  | _ => exact (h _).2 hcolumn

theorem execAll_preAlembicIndexes (h : HasColumns baselineColumns db) :
    execAll Stmt.exec preAlembicIndexes db = .ok { db with indexes := fun _ => true } := by
  obtain ⟨core, indexes, extra, version⟩ := db
  have hstep : ∀ (indexes : CoreIndex → Bool) i t column, column ∈ baselineColumns t →
      (Stmt.createIndex true i t column).exec ⟨core, indexes, extra, version⟩ =
        .ok ⟨core, Function.update indexes i true, extra, version⟩ :=
    fun _ _ t _ hc => exec_createIndex ((h t).2 hc)
  simp only [preAlembicIndexes, execAll, hstep _ _ .accounts "public_key" (by decide),
    hstep _ _ .nonces "created_at" (by decide), hstep _ _ .orders "account_id" (by decide),
    hstep _ _ .certificates "serial" (by decide)]
  congr 2
  funext i
  cases i <;> rfl

/-- The reconciliation runs through, and leaves all late columns and indexes. -/
theorem PreAlembic.reconciled (h : PreAlembic db) :
    ∃ db', execAll Stmt.exec (reconcileStmts db) db = .ok db' ∧ HasColumns baselineColumns db' ∧
      (∀ i, db'.indexes i = true) ∧ db'.core .authorizations = db.core .authorizations := by
  obtain ⟨-, hcols, -⟩ := h
  have hne : ∀ t, db.columns t ≠ [] := by
    intro t hnil
    have hsub := (hcols t).2
    rw [hnil] at hsub
    exact absurd (List.eq_nil_of_subset_nil hsub) (by cases t <;> decide)
  obtain ⟨db₁, h₁, hcore₁, herror⟩ := execAll_missingColumn db .orders "error"
  obtain ⟨db₂, h₂, hcore₂, hserial⟩ := execAll_missingColumn db₁ .certificates "serial"
  have hcert : db₁.core .certificates = db.core .certificates := hcore₁ _ (by decide)
  have hbase : HasColumns baselineColumns db₂ := by
    refine ((hcols.mono (execAll_keeps h₁)).mono (execAll_keeps h₂)).baseline ?_ ?_
    · exact (execAll_keeps h₂).columns _ (herror (hne _))
    · refine hserial ?_
      rw [SqliteDb.columns, hcert]
      exact hne _
  refine ⟨{ db₂ with indexes := fun _ => true }, ?_, hbase, fun _ => rfl, ?_⟩
  · rw [reconcileStmts, execAll_append_of_ok h₁, ← missingColumn_congr hcert,
      execAll_append_of_ok h₂, execAll_preAlembicIndexes hbase]
  · exact (hcore₂ _ (by decide)).trans (hcore₁ _ (by decide))

/-- A statement of the reconciliation leaves a database that can be reconciled. -/
theorem PreAlembic.keep {k : Stmt} {db₀ : SqliteDb} (hk : k ∈ reconcileStmts db₀)
    (h : PreAlembic db) (hexec : k.exec db = .ok db') : PreAlembic db' := by
  refine ⟨(Stmt.exec_version (isDdl_reconcileStmts hk) hexec).trans h.1,
    h.2.1.mono (Stmt.exec_keeps hexec), ?_⟩
  have hall : ∀ k ∈ preAlembicIndexes, k.table ≠ some .authorizations := by decide
  have hspared : k.table ≠ some .authorizations := by
    rcases mem_reconcileStmts hk with rfl | rfl | hk
    · decide
    · decide
    · exact hall k hk
  rw [SqliteDb.columns, Stmt.exec_core hspared hexec]
  exact h.2.2

theorem PreAlembic.runs (h : PreAlembic db) : ∃ db', Current db' ∧
    UnitRun Stmt.exec Startable Ahead db (migrationUnits db) db' := by
  obtain ⟨db₁, hexec, hbase, hindexes, hauthz⟩ := h.reconciled
  have hversion : db₁.alembicVersion = none := by
    rw [← reached_of_ok hexec, reached_version fun k hk => isDdl_reconcileStmts hk, h.1]
  have hat : AtInitial { db₁ with alembicVersion := some [revInitial] } := by
    refine ⟨rfl, hbase, hindexes, ?_⟩
    have herror := h.2.2
    rw [SqliteDb.columns, ← hauthz] at herror
    exact herror
  obtain ⟨db', hcurrent, hrest⟩ := hat.runs
  refine ⟨db', hcurrent, ?_⟩
  have hunits : migrationUnits db = (reconcileStmts db).map ([·]) ++
      [[.createVersionTable, .insertVersion revInitial], unitAuthzError] := by
    simp [migrationUnits, h.1, (h.2.1 .accounts).1]
  rw [hunits]
  refine UnitRun.singles (fun _ hst => .inr (.inl hst))
    (fun k hk st st' hst hk' => PreAlembic.keep hk hst hk') h hexec ?_
  have hpre : PreAlembic db₁ := by
    rw [← reached_of_ok hexec]
    exact reached_induction (fun k hk st st' hst hk' => PreAlembic.keep hk hst hk') h
  refine .cons (.inr (.inl hpre)) (execAll_stamp hversion) ?_ hrest
  intro n hpos hlt
  have hn : n = 1 := Nat.le_antisymm (Nat.le_of_lt_succ hlt) hpos
  subst hn
  simp only [List.take_succ_cons, List.take_zero, reached, Stmt.exec, hversion]
  exact .inl ⟨rfl, (hbase .accounts).1⟩

/-! ### Runs that are killed -/

/-- From every state a run may start from, its units lead to the current schema. -/
theorem Startable.runs (h : Startable db) : ∃ db', Current db' ∧
    UnitRun Stmt.exec Startable Ahead db (migrationUnits db) db' := by
  rcases h with h | h | h | h
  · rcases h.2.2 with hversion | hversion
    · have hunits : migrationUnits db = [[.createVersionTable], unitInitial, unitAuthzError] := by
        simp [migrationUnits, hversion, h.1]
      have hfresh : EmptySchema { db with alembicVersion := some [] } := ⟨h.1, h.2.1, .inr rfl⟩
      obtain ⟨db', hcurrent, hrest⟩ := hfresh.runs rfl
      rw [hunits]
      refine ⟨db', hcurrent, .cons (.inl h) ?_ ?_ hrest⟩
      · simp only [execAll, Stmt.exec, hversion]
      · exact fun n hpos hlt => absurd hlt (Nat.not_lt.mpr hpos)
    · have hunits : migrationUnits db = [unitInitial, unitAuthzError] := by
        simp [migrationUnits, hversion]
      rw [hunits]
      exact h.runs hversion
  · exact h.runs
  · have hunits : migrationUnits db = [unitAuthzError] := by simp [migrationUnits, h.1]
    rw [hunits]
    exact h.runs
  · exact ⟨db, h, h.runs⟩

theorem Startable.known (h : Startable db) : KnownVersion db := by
  rcases h with ⟨-, -, h | h⟩ | ⟨h, -⟩ | ⟨h, -⟩ | ⟨h, -⟩
  · exact .inl h
  · exact .inr (.inl h)
  · exact .inl h
  · exact .inr (.inr (.inl h))
  · exact .inr (.inr (.inr h))

/-- A schema that is ahead of its record fails at its first statement. -/
theorem Ahead.fails (h : Ahead db) : ∃ (k : Stmt) (ks : List Stmt) (e : String),
    Performs Stmt.exec runMigrations db (k :: ks) ∧ k.exec db = .error e := by
  rcases h with ⟨hversion, haccounts⟩ | ⟨hversion, herror⟩
  · have hperforms := runMigrations_performs (.inr (.inl hversion))
    have hunits : (migrationUnits db).flatten = unitInitial ++ unitAuthzError := by
      simp [migrationUnits, hversion]
    rw [hunits] at hperforms
    refine ⟨_, _, "table already exists", hperforms, ?_⟩
    simp only [Stmt.exec, haccounts, if_true]
  · have hperforms := runMigrations_performs (.inr (.inr (.inl hversion)))
    have hunits : (migrationUnits db).flatten = unitAuthzError := by
      simp [migrationUnits, hversion]
    rw [hunits] at hperforms
    refine ⟨_, _, "duplicate column name", hperforms, ?_⟩
    cases hcore : db.core .authorizations with
    | none =>
        rw [SqliteDb.columns, hcore] at herror
        cases herror
    | some tb =>
        have hcol : "error" ∈ tb.columns := by simpa [SqliteDb.columns, hcore] using herror
        simp only [Stmt.exec, hcore, if_pos hcol]

theorem Ahead.not_completes (h : Ahead db) : ¬ Completes runMigrations db db' := by
  intro hcompletes
  obtain ⟨k, ks, e, hperforms, herror⟩ := h.fails
  have hok := hperforms.completes_iff.mp hcompletes
  simp only [execAll, herror, reduceCtorEq] at hok

theorem restartable_runMigrations (db₀ : SqliteDb) :
    Restartable Stmt.exec runMigrations migrationUnits
      (fun st => Startable st ∧ Keeps db₀ st) Ahead where
  performs h := runMigrations_performs h.1.known
  runs h := by
    obtain ⟨db', -, hruns⟩ := h.1.runs
    exact ⟨db', hruns.and (fun _ _ _ hst hk => hst.trans (Stmt.exec_keeps hk)) h.2⟩
  stuck h n := by
    obtain ⟨k, ks, e, hperforms, herror⟩ := h.fails
    rw [hperforms.killedAfter, reached_of_error herror]

/-- The databases the relay is started on: an empty one, one of an early release, and one at a
recorded revision. -/
def StartsFrom (db : SqliteDb) : Prop :=
  (EmptySchema db ∧ db.alembicVersion = none) ∨ PreAlembic db ∨ AtInitial db ∨ Current db

/-- The next run that is left alone succeeds on `db`, brings it to the current schema with what `db₀`
had, and a further one changes nothing. -/
def Converges (db₀ db : SqliteDb) : Prop :=
  ∃ db', Completes runMigrations db db' ∧ Current db' ∧ Keeps db₀ db' ∧
    Completes runMigrations db' db'

/-- **Migration converges from every state and every crash**, exactly where no run was killed inside
a unit. -/
theorem migrations_converge_iff (h : StartsFrom db) (kills : List Nat) :
    Converges db (afterKills runMigrations kills db) ↔
      KillsBetween runMigrations migrationUnits kills db := by
  have hstart : Startable db := by
    rcases h with ⟨h, -⟩ | h
    · exact .inl h
    · exact .inr h
  rcases (restartable_runMigrations db).afterKills kills ⟨hstart, Keeps.refl db⟩ with
      ⟨hkills, hgood, hkeeps⟩ | ⟨hkills, hstuck⟩
  · refine iff_of_true ?_ hkills
    obtain ⟨db', hcurrent, hruns⟩ := hgood.runs
    refine ⟨db', (runMigrations_performs hgood.known).completes_iff.mpr hruns.execAll, hcurrent,
      hkeeps.trans (execAll_keeps hruns.execAll), ?_⟩
    exact (runMigrations_performs (.inr (.inr (.inr hcurrent.1)))).completes_iff.mpr
      hcurrent.runs.execAll
  · refine iff_of_false ?_ hkills
    rintro ⟨db', hcompletes, -⟩
    exact hstuck.not_completes hcompletes

/-- An empty database. -/
def Demo.emptyDb : SqliteDb := ⟨fun _ => none, fun _ => false, [], none⟩

theorem startsFrom_emptyDb : StartsFrom Demo.emptyDb :=
  .inl ⟨⟨fun _ => rfl, fun _ => rfl, .inl rfl⟩, rfl⟩

/-- A first run on an empty database is killed right after the version table, a second one is
killed right after it has recorded `0001_initial`. -/
theorem migrations_converge_emptyDb :
    Converges Demo.emptyDb (afterKills runMigrations [1, 10] Demo.emptyDb) := by
  refine (migrations_converge_iff startsFrom_emptyDb [1, 10]).mpr ?_
  exact ⟨⟨1, rfl⟩, ⟨1, rfl⟩, trivial⟩

/-- **A migration that is stuck**: a first run on an empty database is killed after it has created
`accounts`. -/
theorem migration_stuck :
    ¬ ∀ (db : SqliteDb) (kills : List Nat), StartsFrom db →
      Converges db (afterKills runMigrations kills db) := by
  intro hall
  obtain ⟨db', hcompletes, -⟩ := hall Demo.emptyDb [2] startsFrom_emptyDb
  have hstuck : Ahead (afterKills runMigrations [2] Demo.emptyDb) := .inl ⟨rfl, rfl⟩
  exact hstuck.not_completes hcompletes

end Jackdaw
