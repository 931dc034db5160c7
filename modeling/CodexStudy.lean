import CodexStudy.NewCore.Theorems.UserEdits
import CodexStudy.NewCore.Theorems.Untouched
import CodexStudy.NewCore.Theorems.AllOrNothing
import CodexStudy.NewCore.Theorems.Rollback
import CodexStudy.NewCore.Theorems.Conversations
import CodexStudy.NewCore.Theorems.Terminal
import CodexStudy.NewCore.Theorems.Locks
import CodexStudy.NewCore.Theorems.Activity
import CodexStudy.ApplyPatch.Theorems.Coverage
import CodexStudy.ApplyPatch.Theorems.Preview
import CodexStudy.ApplyPatch.Theorems.Reversal
import CodexStudy.ApplyPatch.Theorems.RoundTrip
import CodexStudy.Core.Theorems.TurnDiff
import CodexStudy.Core.Theorems.Reconstruction
import CodexStudy.ChatAgent.Theorems.Approval
import CodexStudy.ChatAgent.Theorems.Guardrails
import CodexStudy.ChatAgent.Theorems.Answers
import CodexStudy.Sandbox.Theorems.EntryOrder
import CodexStudy.Sandbox.Theorems.AdditionalPermissions
import CodexStudy.Sandbox.Theorems.Intersection
import CodexStudy.Sandbox.Theorems.WritableRoots
import CodexStudy.Sandbox.Theorems.Equivalence
import CodexStudy.Sandbox.Theorems.Mounts
import CodexStudy.ExecPolicy.Theorems.Amendments
import CodexStudy.RemoteControl.Theorems.StaleClose
import CodexStudy.RemoteControl.Theorems.Segments
import CodexStudy.RemoteControl.Theorems.Outbound
import CodexStudy.Readiness.Theorems.Wakeup
import CodexStudy.Core.Theorems.NetworkApproval
import CodexStudy.Sandbox.Theorems.ProtectedCreate
import CodexStudy.AppServer.Theorems.SharedRollback
import CodexStudy.Bridge.Theorems.Transcript
import CodexStudy.Bridge.Theorems.Replay
import CodexStudy.Core.Theorems.Compact
import CodexStudy.MessageHistory.Theorems.Offsets
import CodexStudy.Workspaces.Theorems.Persistence
import CodexStudy.Desktop.Theorems.ThreadList
import CodexStudy.Desktop.Theorems.Streaming
import CodexStudy.Desktop.Theorems.Exploring
import CodexStudy.ShellCommand.Theorems.HiddenOptions
import CodexStudy.Agents.Theorems.Mailbox
import CodexStudy.Agents.Theorems.AgentLimit
import CodexStudy.RemoteControl.Theorems.Streams
import CodexStudy.Config.Theorems.Origins
import CodexStudy.Workspaces.Theorems.Sessions
import CodexStudy.ApplyPatch.Theorems.HunkEffects
import CodexStudy.Core.Theorems.Trimming
import CodexStudy.ApplyPatch.Theorems.Growth
import CodexStudy.ApplyPatch.Theorems.Replacements
import CodexStudy.NewCore.Theorems.Snapshots
import CodexStudy.NewCore.Theorems.PartialRollback
import CodexStudy.NewCore.Theorems.HunkMerge
import CodexStudy.Rollout.Theorems.Paging
import CodexStudy.Core.Theorems.Rollbacks
import CodexStudy.Core.HeadTailBuffer
import CodexStudy.ChatAgent.Theorems.FileTools
import CodexStudy.ChatAgent.OutputLimits
import CodexStudy.Sandbox.Theorems.ProjectRoots
import CodexStudy.Tui.Theorems.Streaming
import CodexStudy.Sandbox.Theorems.LegacyPolicy
import CodexStudy.LocalUsage.Theorems.Totals
import CodexStudy.Desktop.Theorems.Preparing
import CodexStudy.NetworkProxy.Theorems.Session
import CodexStudy.ExecPolicy.Theorems.NetworkRules
import CodexStudy.RemoteControl.Theorems.Splitting
import CodexStudy.Core.Theorems.Truncate
import CodexStudy.StreamParser.Theorems.TaggedLines
import CodexStudy.Desktop.Theorems.Prompts
import CodexStudy.Core.CodeRollback
import CodexStudy.Bridge.Theorems.Schema
import CodexStudy.Rollout.Theorems.SessionIndex
