import Spelunk.Theory.AdmissionRuns
import Spelunk.Theory.AnchorFold
import Spelunk.Theory.ArchiveRuns
import Spelunk.Theory.AutocleanLaw
import Spelunk.Theory.BracedCalls
import Spelunk.Theory.CatFileFrames
import Spelunk.Theory.ClaudeConfined
import Spelunk.Theory.CommitListed
import Spelunk.Theory.CommitLog
import Spelunk.Theory.ContextLaw
import Spelunk.Theory.CsvLists
import Spelunk.Theory.DaemonRuns
import Spelunk.Theory.EmbedRuns
import Spelunk.Theory.ExportFaithful
import Spelunk.Theory.FtsGrammar
import Spelunk.Theory.HookRuns
import Spelunk.Theory.IdentityRuns
import Spelunk.Theory.IndexMigrationCrash
import Spelunk.Theory.IndexProvenance
import Spelunk.Theory.InertText
import Spelunk.Theory.KeyMigrationRuns
import Spelunk.Theory.KeyringRuns
import Spelunk.Theory.LiveHits
import Spelunk.Theory.LlmLadder
import Spelunk.Theory.MarkdownSections
import Spelunk.Theory.MentionCode
import Spelunk.Theory.MigrationCrash
import Spelunk.Theory.NearestNotes
import Spelunk.Theory.NoteIdJson
import Spelunk.Theory.ProjectIdLaw
import Spelunk.Theory.ProjectsApart
import Spelunk.Theory.PublishRuns
import Spelunk.Theory.PullRuns
import Spelunk.Theory.PushOnce
import Spelunk.Theory.RagOrder
import Spelunk.Theory.RankRuns
import Spelunk.Theory.ReadFileBounds
import Spelunk.Theory.ReconcileCorrect
import Spelunk.Theory.RegistryRuns
import Spelunk.Theory.RelayRuns
import Spelunk.Theory.RequestPathLaw
import Spelunk.Theory.RunLockRuns
import Spelunk.Theory.SearchAbsence
import Spelunk.Theory.SecretScan
import Spelunk.Theory.ServerRuns
import Spelunk.Theory.ServerTextOnly
import Spelunk.Theory.StreamCuts
import Spelunk.Theory.StreamRuns
import Spelunk.Theory.SummaryPass
import Spelunk.Theory.TransportLaw
import Spelunk.Theory.TsWalk
import Spelunk.Theory.VerifiedWrite
import Spelunk.Theory.WatchFrames
